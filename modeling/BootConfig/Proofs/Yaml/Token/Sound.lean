import BootConfig.Proofs.Yaml.Token.Tidy

/-!
# Lexers stay tidy

Each step keeps a lexer tidy and leaves it quiet, and so does a run over a text that may be read.
-/

namespace BootConfig.Yaml

open Steps

/-! ## Relations between lexers -/

namespace Lexer

/-- The cursor stays, and a tidy lexer stays tidy. -/
structure Stable (text : List Char) (l l' : Lexer) : Prop where
  cursor : l'.cursor = l.cursor
  tidy : l.Tidy text → l'.Tidy text

instance {text : List Char} : Std.Refl (Stable text) := ⟨fun _ => ⟨rfl, id⟩⟩

instance {text : List Char} : Trans (Stable text) (Stable text) (Stable text) :=
  ⟨fun h h' => ⟨h'.cursor.trans h.cursor, h'.tidy ∘ h.tidy⟩⟩

/-- A token without a quote at its end is taken from a cursor of some kind, and a tidy lexer stays
tidy. -/
structure Settled (text : List Char) (p : Cursor → Prop) (l l' : Lexer) : Prop where
  closed : p l.cursor → l.cursor.Closed l'.cursor
  tidy : l.Tidy text → l'.Tidy text

/-- A gap is taken: the cursor moves behind characters that are no quotes, or nothing changes. -/
def Skips (l l' : Lexer) : Prop :=
  ∃ c allowed, l' = { l with cursor := c, keyAllowed := allowed } ∧ l.cursor.Before c ∧
    (l.cursor.Closed c ∨ c.rest = l.cursor.rest ∧ allowed = l.keyAllowed)

instance : Std.Refl Skips := ⟨fun l => ⟨l.cursor, l.keyAllowed, rfl, .refl _, Or.inr ⟨rfl, rfl⟩⟩⟩

instance : Trans Skips Skips Skips := ⟨by
  rintro l _ _ ⟨c, allowed, rfl, hb, h⟩ ⟨c', allowed', rfl, hb', h'⟩
  refine ⟨c', allowed', rfl, hb.trans hb', ?_⟩
  rcases h' with hclosed | ⟨hr, ha⟩
  · exact Or.inl (hb.closed hclosed)
  · rcases h with hclosed | ⟨hr', ha'⟩
    · exact Or.inl (hclosed.clear (Or.inl hr))
    · exact Or.inr ⟨hr.trans hr', ha.trans ha'⟩⟩

/-- What holds of a lexer between two steps. -/
structure Sound (text : List Char) (l : Lexer) : Prop where
  tidy : l.Tidy text
  quiet : Quiet text l

variable {text : List Char} {l l' : Lexer}

theorem Skips.sound (h : l.Skips l') (hs : l.Sound text) : l'.Sound text := by
  obtain ⟨c, allowed, rfl, hb, hc⟩ := h
  refine ⟨hs.tidy.move hb, ?_⟩
  rcases hc with hclosed | ⟨hr, rfl⟩
  · exact quiet_of_ends hs.tidy.front (Or.inr hclosed)
  · intro hq
    simp only [hr] at hq
    rcases hs.quiet hq with hstart | hrest
    · exact Or.inl fun x more hx => hstart x more (hr ▸ hx)
    · exact Or.inr hrest

theorem Forgets.sound (h : l.Forgets l') (hs : l.Sound text) : l'.Sound text := by
  obtain ⟨pending, hp, rfl⟩ := h
  refine ⟨hs.tidy.forget hp, fun hq => (hs.quiet hq).imp_right ?_⟩
  rintro ⟨hlast, hkey, hlt⟩
  exact ⟨hlast, hkey, fun k hk => hlt k (hp.subset hk)⟩

theorem Settled.sound {p : Cursor → Prop} (h : l.Settled text p l') (hp : p l.cursor)
    (hs : l.Sound text) : l'.Sound text :=
  ⟨h.tidy hs.tidy, quiet_of_ends hs.tidy.front (Or.inr (h.closed hp))⟩

theorem Tidy.insertAt {k : PendingKey} {t : Token} (h : l.Tidy text) (hk : k ∈ l.pending)
    (hle : ∀ k' ∈ l.pending, k'.number ≤ k.number) (hp : t.kind.isPart = false)
    (he : t.kind.endsNode = false) : (l.insertAt k.number t).Tidy text := by
  obtain ⟨hlen, hfirst⟩ := h.keys k hk
  have hcount := h.count
  have hsplit := List.take_append_drop (l.count - k.number) l.tokens
  have holder : (l.tokens.drop (l.count - k.number)).length = k.number := by
    rw [List.length_drop]
    omega
  have htidy :
      Yaml.Tidy text l.cursor
      (l.tokens.take (l.count - k.number) ++ l.tokens.drop (l.count - k.number)) l.count
      l.pending := by
    rw [hsplit]
    exact h
  refine htidy.insert hp he (fun t' ht' =>
    hfirst t' ?_) (fun k' hk' => by rw [holder]; exact hle k' hk')
  -- the last of the newer tokens is the one that the key begins with
  rw [← hsplit, List.reverse_append, List.getElem?_append_right (by simp; omega)]
  rw [List.length_reverse, holder, Nat.sub_self, ← List.head?_eq_getElem?, List.head?_reverse]
  exact ht'

end Lexer

namespace Lex

variable {text : List Char} {α β : Type} {x : Lex α} {f : α → Lex β} {p : Cursor → Prop}
  {l l' : Lexer} {kind : Token.Kind}

abbrev Stable (text : List Char) (x : Lex α) : Prop := Along (Lexer.Stable text) x

abbrev Settles (text : List Char) (p : Cursor → Prop) (x : Lex α) : Prop :=
  Along (Lexer.Settled text p) x

theorem Stable.settles (hx : Stable text x) (hf : ∀ a, Settles text p (f a)) :
    Settles text p (x >>= f) :=
  Along.bind_of (fun l l' l'' h h' =>
    ⟨fun hp => by rw [← h.cursor] at hp ⊢; exact h'.closed hp, h'.tidy ∘ h.tidy⟩) hx hf

/-! ## Keys and collections -/

theorem stable_forgets (hx : Along Lexer.Forgets x) : Stable text x := hx.imp fun l l' h => by
  obtain ⟨pending, hp, rfl⟩ := h
  exact ⟨rfl, fun h => h.forget hp⟩

theorem stable_dropKey : Stable text dropKey := stable_forgets forgets_dropKey

theorem stable_inFlow : Stable text inFlow := fun _ _ _ h => by cases h; exact Std.Refl.refl _

theorem stable_allowKey (allowed : Bool) : Stable text (allowKey allowed) :=
  .modify fun _ => ⟨rfl, id⟩

theorem tidy_saveKey {pending : List PendingKey} (h : l.Tidy text) (hp : pending.Sublist l.pending)
    (k : PendingKey) (hk : k.number = l.count) : { l with pending := k :: pending }.Tidy text := by
  have hcount := h.count
  have hforget := h.forget hp
  refine { hforget with
    keys := List.forall_mem_cons.mpr ⟨⟨Nat.le_of_eq (hk.trans hcount), ?_⟩, hforget.keys⟩
    order := ?_ }
  · rw [List.getElem?_eq_none (by simp; omega)]
    exact fun t ht => by cases ht
  · refine List.pairwise_cons.mpr ⟨fun k' hk' => ?_, hforget.order⟩
    have := (hforget.keys k' hk').1
    omega

/-- A possible key is remembered only where one is allowed. -/
theorem saveKey_ok (h : saveKey l = .ok ((), l')) :
    ∃ pending, l' = { l with pending := pending } ∧ (∀ text, l.Stable text l') ∧
      (l.keyAllowed = false → pending = l.pending) := by
  unfold saveKey at h
  rw [get_bind] at h
  split at h
  · rename_i ha
    obtain ⟨_, l₁, hdrop, h⟩ := ok_of_bind h
    obtain ⟨pending, hp, rfl⟩ := forgets_dropKey.rel hdrop
    cases h
    exact ⟨_, rfl, fun _ => ⟨rfl, fun h => tidy_saveKey h hp _ rfl⟩,
      fun hf => by rw [ha] at hf; cases hf⟩
  · cases h
    exact ⟨l.pending, rfl, fun _ => Std.Refl.refl _, fun _ => rfl⟩

theorem stable_saveKey : Stable text saveKey := fun l u l' h => by
  obtain ⟨_, _, hs, _⟩ := saveKey_ok (show saveKey l = .ok ((), l') from h)
  exact hs text

theorem stable_openBlockHere (hk : kind.isPart = false) (otherwise : Cause) :
    Stable text (openBlockHere kind otherwise) :=
  .get fun _ => .ite (fun _ => .andThen (fun _ => .throw _) fun _ => .modify fun l => by
    split
    · exact ⟨rfl, fun h => h.emit_other (.refl _) hk⟩
    · exact Std.Refl.refl _) fun _ => .pure _

section Insertions

variable {k : PendingKey} {pending : List PendingKey}

/-- A token in front of the one that the newest possible key begins with; no other key begins behind
it. -/
theorem stable_insertAt {t : Token} (hp : l.pending = k :: pending) (ht : t.kind.isPart = false)
    (he : t.kind.endsNode = false) :
    l.Stable text (l.insertAt k.number t) :=
  ⟨rfl, fun h => h.insertAt (by simp [hp]) (fun k' hk' => by
  have horder := h.order
  rw [hp] at hk' horder
  rcases List.mem_cons.mp hk' with rfl | hk'
  · exact Nat.le_refl _
  · exact (List.pairwise_cons.mp horder).1 k' hk') ht he⟩

theorem stable_openBlock {column : Nat} {place : Mark} {u : Unit} (hp : l.pending = k :: pending)
    (hk : kind.isPart = false) (he : kind.endsNode = false)
    (h : openBlock column (some k.number) kind place l = .ok (u, l')) : l.Stable text l' := by
  cases h
  simp only
  split
  · have hinsert : Lexer.Stable text { l with columns := column :: l.columns } _ :=
      stable_insertAt (t := ⟨kind, place, place⟩) hp hk he
    exact ⟨rfl, fun h => hinsert.tidy h⟩
  · exact Std.Refl.refl _

end Insertions

theorem stable_closeBlocks (column : Int) : Stable text (closeBlocks column) := .modify fun l => by
  split
  · exact Std.Refl.refl _
  · exact ⟨rfl, fun h => h.close _ _⟩

theorem sound_closeBlocks {column : Int} (hs : l.Sound text)
    (h : closeBlocks column l = .ok ((), l')) : l'.Sound text := by
  refine ⟨((stable_closeBlocks column).rel h).tidy hs.tidy, ?_⟩
  cases h
  simp only
  split
  · exact hs.quiet
  · intro hq
    refine (hs.quiet hq).imp id ?_
    rintro ⟨⟨t, ht, he⟩, hkey, hlt⟩
    refine ⟨?_, hkey, fun k hk => Nat.lt_of_lt_of_le (hlt k hk) (by simp)⟩
    cases (l.columns.takeWhile (Lexer.isRightOf column)).length with
    | zero => exact ⟨t, ht, he⟩
    | succ n => exact ⟨⟨.blockEnd, l.mark, l.mark⟩, rfl, rfl⟩

/-! ## Indicators -/

theorem rest_repeat (n : Nat) (c : Cursor) : (n.repeat Cursor.advance c).rest = c.rest.drop n := by
  induction n with
  | zero => rfl
  | succ n ih =>
      have hstep : ∀ c : Cursor, c.advance.rest = c.rest.tail := fun c => by
        unfold Cursor.advance
        cases h : c.rest <;> simp [h]
      rw [Nat.repeat, hstep, ih, List.tail_drop]

/-- In front of a character that is no quote. -/
def StartsWith (x : Char) (c : Cursor) : Prop := c.rest.head? = some x

theorem settles_indicator (hk : kind.isPart = false) (n : Nat)
    (hp : ∀ c, p c → c.rest.take n ≠ [] ∧ ∀ x ∈ c.rest.take n, isQuote x = false) :
      Settles text p (indicator kind n) := by
  intro l u l' h
  obtain ⟨start, l₁, hm, h⟩ := ok_of_bind h
  cases hm
  obtain ⟨_, l₂, hscan, h⟩ := ok_of_bind h
  obtain ⟨c, hc, rfl⟩ := scan_ok hscan
  have hbefore := (Scan.keeps_skipMany n).rel hc
  cases hc
  obtain ⟨stop, l₃, hm, h⟩ := ok_of_bind h
  cases hm
  cases h
  refine ⟨fun hpc => ?_, fun h => h.emit_other hbefore hk⟩
  obtain ⟨hne, hall⟩ := hp _ hpc
  refine Cursor.closed_of_run (l.cursor.rest.take n) ?_ hne hall
  change l.cursor.rest = _ ++ (n.repeat Cursor.advance l.cursor).rest
  rw [rest_repeat, List.take_append_drop]

theorem settles_one (hk : kind.isPart = false) {x : Char} (hx : isQuote x = false) :
    Settles text (StartsWith x) (indicator kind 1) :=
  settles_indicator hk 1 fun c hc => by
    obtain ⟨more, hr⟩ := List.head?_eq_some_iff.mp hc
    simpa [hr] using hx

theorem settles_documentMark (hk : kind.isPart = false) :
    Settles text (·.atDocumentMark = true) (documentMark kind) :=
  (stable_closeBlocks _).settles fun _ => stable_dropKey.settles fun _ =>
    (stable_allowKey _).settles fun _ =>
    settles_indicator hk 3 fun c hc => by
      obtain ⟨_, x, more, hx, _, hr⟩ := Cursor.atDocumentMark_iff.mp hc
      rw [hr]
      rcases hx with rfl | rfl <;> exact ⟨List.cons_ne_nil _ _, by simp [isQuote]⟩

section Indicators

variable {x : Char} (hx : isQuote x = false)

include hx

theorem settles_flowStart (hk : kind.isPart = false) :
    Settles text (StartsWith x) (flowStart kind) :=
  stable_saveKey.settles fun _ => Stable.settles (.modify fun _ => ⟨rfl, id⟩) fun _ =>
    (stable_allowKey _).settles fun _ =>
    settles_one hk hx

theorem settles_flowEnd (hk : kind.isPart = false) : Settles text (StartsWith x) (flowEnd kind) :=
  stable_dropKey.settles fun _ => Stable.settles (.modify fun _ => ⟨rfl, id⟩) fun _ =>
    (stable_allowKey _).settles fun _ =>
    settles_one hk hx

theorem settles_flowEntry : Settles text (StartsWith x) flowEntry :=
  stable_dropKey.settles fun _ => (stable_allowKey _).settles fun _ => settles_one rfl hx

theorem settles_blockEntry : Settles text (StartsWith x) blockEntry :=
  (stable_openBlockHere rfl _).settles fun _ => stable_dropKey.settles fun _ =>
    (stable_allowKey _).settles fun _ => settles_one rfl hx

theorem settles_keyIndicator : Settles text (StartsWith x) keyIndicator :=
  (stable_openBlockHere rfl _).settles fun _ => stable_dropKey.settles fun _ =>
    stable_inFlow.settles fun _ =>
    (stable_allowKey _).settles fun _ => settles_one rfl hx

theorem settles_valueIndicator : Settles text (StartsWith x) valueIndicator := by
  intro l u l' h
  unfold valueIndicator at h
  rw [get_bind] at h
  cases hk : l.key? with
  | none =>
      simp only [hk] at h
      exact Along.rel ((stable_openBlockHere rfl _).settles fun _ =>
        (stable_allowKey _).settles fun _ => settles_one rfl hx) h
  | some k =>
      simp only [hk] at h
      obtain ⟨pending, hp⟩ : ∃ pending, l.pending = k :: pending := by
        unfold Lexer.key? at hk
        split at hk
        · split at hk
          · rename_i heq _
            cases hk
            exact ⟨_, heq⟩
          · cases hk
        · cases hk
      rw [modify_bind] at h
      have hkey : l.Stable text (l.insertAt k.number ⟨.key, k.mark, k.mark⟩) :=
        stable_insertAt hp rfl rfl
      obtain ⟨_, l₁, hopen, h⟩ := ok_of_bind h
      have hp₁ : (l.insertAt k.number ⟨.key, k.mark, k.mark⟩).pending = k :: pending := hp
      have hopened := (stable_openBlock hp₁ rfl rfl hopen : Lexer.Stable text _ l₁)
      rw [modify_bind] at h
      have htail : l₁.Stable text { l₁ with pending := l₁.pending.tail } :=
        ⟨rfl, fun h => h.forget (List.tail_sublist _)⟩
      have hall := Trans.trans hkey (Trans.trans hopened htail)
      have hlast : Lexer.Settled text (StartsWith x) _ l' :=
        Along.rel ((stable_allowKey false).settles fun _ => settles_one rfl hx) h
      exact ⟨fun hc => by rw [← hall.cursor] at hc ⊢; exact hlast.closed hc, hlast.tidy ∘ hall.tidy⟩

end Indicators

/-! ## Scanned tokens -/

section Scanned

variable {s : Scan Token} {q : Token.Kind → Prop} {t : Token} {c : Cursor}

/-- A scanned token with a known source that is no plain scalar. -/
theorem tidy_scanned (h : l.Tidy text) (hk : Scan.Keeps s) (hb : Scan.BeginsHere q s)
    (hq : ∀ k, q k → ∀ s, k ≠ .scalar .plain s) (hs : s l.cursor = .ok (t, c))
    (hsource : t.Sourced text) : Tidy text c (t :: l.tokens) (l.count + 1) l.pending := by
  obtain ⟨hstart, hkind⟩ := hb _ _ _ hs
  refine h.emit (hk.rel hs) hsource (fun _ => by rw [hstart]) fun htight => ?_
  obtain ⟨⟨s, hplain⟩, _⟩ := htight
  exact absurd hplain (hq _ hkind s)

theorem emit_ok (h : (scan s >>= emit) l = .ok ((), l')) :
    ∃ t c, s l.cursor = .ok (t, c) ∧
      l' = { l with cursor := c, tokens := t :: l.tokens, count := l.count + 1 } := by
  obtain ⟨t, l₁, hscan, h⟩ := ok_of_bind h
  obtain ⟨c, hc, rfl⟩ := scan_ok hscan
  cases h
  exact ⟨t, c, hc, rfl⟩

theorem settles_scanned (hk : Scan.Keeps s) (hc : Scan.Closes s) (hb : Scan.BeginsHere q s)
    (hq : ∀ k, q k → ∀ s, k ≠ .scalar .plain s) (hsource : ∀ t : Token, q t.kind → t.Sourced text) :
      Settles text (fun _ => True) (scan s >>= emit) := by
  intro l _ l' h
  obtain ⟨t, c, hs, rfl⟩ := emit_ok h
  exact ⟨fun _ => hc.rel hs, fun h => tidy_scanned h hk hb hq hs (hsource t (hb _ _ _ hs).2)⟩

theorem settles_directive : Settles text (fun _ => True) directive :=
  (stable_closeBlocks _).settles fun _ => stable_dropKey.settles fun _ =>
    (stable_allowKey _).settles fun _ =>
    settles_scanned Scan.takes_directive.keeps Scan.closes_directive Scan.begins_directive
      (by rintro _ (⟨_, _, rfl⟩ | ⟨_, _, rfl⟩) <;> simp)
      (by rintro t (⟨_, _, hk⟩ | ⟨_, _, hk⟩) <;> exact .of_not_scalar (by simp [hk]))

theorem settles_blockScalar (folded : Bool) : Settles text (fun _ => True) (blockScalar folded) :=
  stable_dropKey.settles fun _ => (stable_allowKey _).settles fun _ => .get fun _ =>
    settles_scanned (Scan.takes_block _ _).keeps (Scan.closes_block _ _) (Scan.begins_block _ _)
      (by rintro _ ⟨_, rfl⟩; cases folded <;> simp)
      (by
        rintro t ⟨s, hk⟩
        refine ⟨fun s' hk' => ?_, fun single s' hk' => ?_⟩
        · rw [hk] at hk'
          cases folded <;> cases hk'
        · rw [hk] at hk'
          cases folded <;> cases single <;> cases hk')

theorem keyToken_ok (h : keyToken s l = .ok ((), l')) :
    ∃ pending t c, (∀ text, l.Stable text { l with pending }) ∧ s l.cursor = .ok (t, c) ∧
      l' = { l with
        cursor := c, pending, keyAllowed := false
        tokens := t :: l.tokens, count := l.count + 1 } := by
  obtain ⟨_, l₁, hsave, h⟩ := ok_of_bind h
  obtain ⟨pending, rfl, hstable, _⟩ := saveKey_ok hsave
  obtain ⟨_, l₂, hallow, h⟩ := ok_of_bind h
  cases hallow
  obtain ⟨t, c, hs, rfl⟩ := emit_ok h
  exact ⟨pending, t, c, hstable, hs, rfl⟩

theorem sound_keyToken (hl : l.Sound text) (hk : Scan.Keeps s) (hb : Scan.BeginsHere q s)
    (hq : ∀ k, q k → ∀ s, k ≠ .scalar .plain s)
    (hsource : ∀ t c, s l.cursor = .ok (t, c) → t.Sourced text)
    (hends : ∀ t c, s l.cursor = .ok (t, c) → (c.Startless l.inFlow ∨ l.cursor.Closed c) ∨
      t.kind.endsNode = true)
    (h : keyToken s l = .ok ((), l')) : l'.Sound text := by
  obtain ⟨pending, t, c, hstable, hs, rfl⟩ := keyToken_ok h
  have htidy := (hstable text).tidy hl.tidy
  refine ⟨tidy_scanned htidy hk hb hq hs (hsource t c hs), ?_⟩
  rcases hends t c hs with hopen | hend
  · exact quiet_of_ends hl.tidy.front hopen
  · exact fun _ => Or.inr ⟨⟨t, rfl, hend⟩, rfl, fun k hk => Nat.lt_succ_of_le (htidy.keys k hk).1⟩

theorem sound_quoted {single : Bool} {more : List Char} (hl : l.Sound text)
    (hr : l.cursor.rest = Scan.quoteOf single :: more)
    (h : keyToken (Scan.quoted single) l = .ok ((), l')) : l'.Sound text := by
  refine sound_keyToken hl (Scan.takes_quoted _).keeps (Scan.begins_quoted _)
    (by rintro _ ⟨_, rfl⟩; cases single <;> simp) (fun t c hs => ?_) (fun t c hs => Or.inr ?_) h
  · obtain ⟨source, text', hk, hstart, hrest, hstop, hsource⟩ :=
      Scan.quoted_source hr hl.tidy.room hs
    obtain ⟨front, hf, ho⟩ := hl.tidy.place
    refine ⟨fun s hk' => ?_, fun single' s hk' => ?_⟩
    · rw [hk] at hk'
      cases single <;> cases hk'
    · rw [hk] at hk'
      obtain rfl : single = single' := by
        cases single <;> cases single' <;> first | rfl | cases hk'
      obtain rfl : String.ofList text' = s := (Token.Kind.scalar.inj hk').2
      refine ⟨source, ⟨front, c.rest, ?_, by rw [hstart, ho], by rw [hstop, ho]⟩,
        by rwa [String.toList_ofList]⟩
      rw [hf, hrest]
      simp
  · obtain ⟨s, hk⟩ := (Scan.begins_quoted single _ _ _ hs).2
    rw [hk]
    rfl

end Scanned

/-! ## Plain scalars -/

theorem plainScalar_ok (h : plainScalar l = .ok ((), l')) :
    ∃ pending t broken c, (∀ text, l.Stable text { l with pending }) ∧
      (l.keyAllowed = false → pending = l.pending) ∧
      Scan.plain l.inFlow (l.indent + 1).toNat l.cursor = .ok ((t, broken), c) ∧
      l' = { l with
        cursor := c, pending, keyAllowed := broken
        tokens := t :: l.tokens, count := l.count + 1 } := by
  obtain ⟨_, l₁, hsave, h⟩ := ok_of_bind h
  obtain ⟨pending, rfl, hstable, hsame⟩ := saveKey_ok hsave
  obtain ⟨_, l₂, hallow, h⟩ := ok_of_bind h
  cases hallow
  rw [get_bind] at h
  obtain ⟨⟨t, broken⟩, l₃, hscan, h⟩ := ok_of_bind h
  obtain ⟨c, hc, rfl⟩ := scan_ok hscan
  obtain ⟨_, l₄, hemit, h⟩ := ok_of_bind h
  cases hemit
  refine ⟨pending, t, broken, c, hstable, hsame, hc, ?_⟩
  cases broken <;> cases h <;> rfl

theorem behindQuote_of_tight {t : Token} (h : l.Tidy text) (hstart : t.start = l.cursor.mark)
    (ht : t.IsTight text) : BehindQuote text l.cursor.rest := by
  obtain ⟨_, front', q, rest', htext, hq, ho⟩ := ht
  obtain ⟨front, hf, ho'⟩ := h.place
  have heq : front ++ l.cursor.rest = (front' ++ [q]) ++ rest' := by
    rw [← hf, htext]
    simp
  obtain ⟨_, hrest⟩ := append_inj_of_bytes heq (by rw [← ho, ← ho', hstart])
  exact ⟨front', q, by rw [htext, hrest], hq⟩

theorem sound_plainScalar {x : Char} {more : List Char} (hl : l.Sound text)
    (hr : l.cursor.rest = x :: more) (hx : startsPlain l.inFlow x more.head? = true)
    (hd : l.cursor.atDocumentMark = false) (h : plainScalar l = .ok ((), l')) :
    l'.Sound text := by
  obtain ⟨pending, t, broken, c, hstable, hsame, hs, rfl⟩ := plainScalar_ok h
  obtain ⟨source, text', rest, hk, hstart, hrest, hstop, hsource⟩ := Scan.plain_source hs
  obtain ⟨front, hf, ho⟩ := hl.tidy.place
  have hpast := Scan.past_plain hr hx hd (Nat.zero_lt_of_lt hl.tidy.room) hs
  refine ⟨((hstable text).tidy hl.tidy).emit hpast.toBefore ?_ (fun _ => by rw [hstart]) fun ht =>
    ?_, ?_⟩
  · refine ⟨fun s hk' => ?_, fun single s hk' => ?_⟩
    · obtain rfl : String.ofList text' = s := (Token.Kind.scalar.inj (hk.symm.trans hk')).2
      exact ⟨source, ⟨front, rest, by rw [hf, hrest], by rw [hstart, ho], by rw [hstop, ho]⟩,
        by rwa [String.toList_ofList]⟩
    · rw [hk] at hk'
      cases single <;> cases hk'
  · rcases hl.quiet (behindQuote_of_tight hl.tidy hstart ht) with hstartless | ⟨hlast, hkey, hlt⟩
    · rw [hstartless x more hr] at hx
      cases hx
    · simp only [hsame hkey]
      exact ⟨hlast, hlt⟩
  · exact quiet_of_ends hl.tidy.front (Scan.ends_plain hr hx hd hl.tidy.room hs)

/-! ## Gaps -/

theorem skips_scan {s : Scan α} (hk : Scan.Keeps s) (hc : Scan.Clears s) :
    Along Lexer.Skips (scan s) := by
  intro l a l' h
  obtain ⟨c, hs, rfl⟩ := scan_ok h
  exact ⟨c, l.keyAllowed, rfl, hk.rel hs, (hc.rel hs).symm.imp_right fun hr => ⟨hr, rfl⟩⟩

theorem skips_skipBlanks : Along Lexer.Skips skipBlanks := .get fun l =>
  skips_scan (.bind (Scan.keeps_need 1) fun _ => Scan.keeps_skipWhile _)
    (.bind (Scan.stays_need 1).clears fun _ =>
    Scan.clears_skipWhile fun x hx => by
      simp only [Bool.or_eq_true, Bool.and_eq_true, beq_iff_eq] at hx
      rcases hx with rfl | ⟨_, rfl⟩ <;> rfl)

/-- A comment ends with its line. -/
theorem comment_ok {c c' : Cursor} {next : Option Char} (h : (do
    if (← Scan.peek) = some '#' then Scan.skipWhile fun x => !isBreak x
    Scan.peek : Scan (Option Char)) c = .ok (next, c')) :
    next = c'.rest.head? ∧ c.Before c' ∧ (c' = c ∨ atLineEnd next = true) := by
  obtain ⟨first, c₁, hpeek, h⟩ := ok_of_bind h
  cases hpeek
  split at h
  · obtain ⟨_, c₁, hskip, h⟩ := ok_of_bind h
    cases h
    change (Scan.takeWhile (fun x => !isBreak x) >>= fun _ => pure ()) c = _ at hskip
    obtain ⟨line, c₂, htake, hskip⟩ := ok_of_bind hskip
    cases hskip
    exact ⟨rfl, (Scan.keeps_takeWhile _).rel htake, Or.inr (Scan.lineEnd_takeWhile htake)⟩
  · cases h
    exact ⟨rfl, .refl _, Or.inl rfl⟩

theorem skips_byteOrderMark : Along Lexer.Skips (scan (do
    Scan.need 1
    let c ← get
    if c.mark.column = 0 && c.rest.head? = some byteOrderMark then Scan.skip)) := by
  refine skips_scan (.bind (Scan.keeps_need 1) fun _ => .get fun _ =>
    .ite (fun _ => Scan.takes_skip.keeps) fun _ => .pure _)
    (.bind (Scan.stays_need 1).clears fun _ => fun c u c' h => ?_)
  rw [get_bind] at h
  split at h
  · rename_i hc
    simp only [Bool.and_eq_true, decide_eq_true_eq] at hc
    obtain ⟨more, hr⟩ := List.head?_eq_some_iff.mp hc.2
    cases h
    exact Cursor.clear_of_run [byteOrderMark] (by simp [Cursor.advance, hr])
      (by simp [isQuote, byteOrderMark])
  · cases h
    exact Std.Refl.refl c

section Line

variable {c : Cursor}

/-- A line break, behind which a key may become allowed. -/
theorem skips_newline {u : Unit} (hb : l.cursor.Before c) (hbreak : atBreak c.rest.head? = true)
    (h : scan (do Scan.need 2; Scan.skipBreak) { l with cursor := c } = .ok (u, l'))
    (allowed : Bool) :
    l.Skips { l' with keyAllowed := allowed } := by
  obtain ⟨c', hc', rfl⟩ := scan_ok h
  obtain ⟨_, c₁, hneed, hskip⟩ := ok_of_bind hc'
  rw [Scan.stays_need 2 _ _ _ hneed] at hskip
  have hend : atLineEnd c.rest.head? = true := by
    cases hh : c.rest.head? with
    | none => rfl
    | some x =>
        rw [hh] at hbreak
        exact hbreak
  exact ⟨c', allowed, rfl, hb.trans (Scan.keeps_skipBreak.rel hskip),
    Or.inl (hb.closed (Scan.closed_skipBreak hend hskip))⟩

/-- Without a line break nothing has been passed, or a comment up to the end of the text. -/
theorem skips_line (hb : l.cursor.Before c) (hends : c = l.cursor ∨ atLineEnd c.rest.head? = true)
    (hbreak : atBreak c.rest.head? = false) : l.Skips { l with cursor := c } := by
  refine ⟨c, l.keyAllowed, rfl, hb, ?_⟩
  rcases hends with rfl | hend
  · exact Or.inr ⟨rfl, rfl⟩
  · refine Or.inl (Or.inl ?_)
    cases hr : c.rest with
    | nil => rfl
    | cons x more =>
        rw [hr] at hend hbreak
        have hx : isBreak x = false := by simpa [atBreak] using hbreak
        simp [atLineEnd, hx] at hend

end Line

theorem skips_skipGap : (fuel : Nat) → Along Lexer.Skips (skipGap fuel)
  | 0 => .pure _
  | fuel + 1 => by
      refine .bind skips_byteOrderMark fun _ => .bind skips_skipBlanks fun _ => fun l u l' h => ?_
      obtain ⟨next, l₁, hscan, h⟩ := ok_of_bind h
      obtain ⟨c, hc, rfl⟩ := scan_ok hscan
      obtain ⟨rfl, hbefore, hends⟩ := comment_ok hc
      split at h
      · rename_i hbreak
        obtain ⟨_, l₂, hnewline, h⟩ := ok_of_bind h
        have hskips := skips_newline hbefore hbreak hnewline
        obtain ⟨inFlow, l₃, hflow, h⟩ := ok_of_bind h
        cases hflow
        split at h
        · obtain ⟨_, l₄, hset, h⟩ := ok_of_bind h
          cases hset
          exact Trans.trans (hskips true) ((skips_skipGap fuel).rel h)
        · exact Trans.trans (hskips l₂.keyAllowed) ((skips_skipGap fuel).rel h)
      · rename_i hbreak
        cases h
        exact skips_line hbefore hends (by simpa using hbreak)

/-! ## Steps -/

theorem tidy_streamEnd (hl : l.Tidy text) (h : streamEnd l = .ok ((), l')) : l'.Tidy text := by
  obtain ⟨_, l₁, hmark, h⟩ := ok_of_bind h
  have h₁ : l₁.Tidy text := by
    cases hmark
    simp only
    split
    · exact hl
    · exact { hl with }
  obtain ⟨_, l₂, hclose, h⟩ := ok_of_bind h
  have h₂ : l₂.Tidy text := ((stable_closeBlocks _).rel hclose).tidy h₁
  obtain ⟨_, l₃, hdrop, h⟩ := ok_of_bind h
  have h₃ : l₃.Tidy text := (stable_dropKey.rel hdrop).tidy h₂
  obtain ⟨_, l₄, hallow, h⟩ := ok_of_bind h
  cases hallow
  obtain ⟨here, l₄, hmark, h⟩ := ok_of_bind h
  cases hmark
  obtain ⟨_, l₄, hemit, h⟩ := ok_of_bind h
  cases hemit
  cases h
  exact h₃.emit_other (.refl _) rfl

theorem sound_tokenAt {c : Char} {more : List Char} (hl : l.Sound text)
    (hr : l.cursor.rest = c :: more)
    (h : tokenAt c more.head? l = .ok ((), l')) : l'.Sound text := by
  have hite : ∀ {p : Prop} [Decidable p] {x y : Lex Unit},
      (p → x l = .ok ((), l') → l'.Sound text) → (¬p → y l = .ok ((), l') → l'.Sound text) →
      (if p then x else y) l = .ok ((), l') → l'.Sound text := by
    intro p _ x y hx hy h
    split at h
    · exact hx ‹_› h
    · exact hy ‹_› h
  have hone : ∀ {x : Lex Unit} {y : Char}, (isQuote y = false → Settles text (StartsWith y) x) →
      isQuote y = false → c = y → x l = .ok ((), l') → l'.Sound text := by
    rintro x y hx hy rfl h
    exact ((hx hy).rel h).sound (by simp [StartsWith, hr]) hl
  have hany : ∀ {x : Lex Unit}, Settles text (fun _ => True) x → x l = .ok ((), l') →
      l'.Sound text :=
    fun hx h => (hx.rel h).sound trivial hl
  -- the branches in the order in which they are tried
  unfold tokenAt at h
  rw [get_bind] at h
  refine hite (fun _ => hany settles_directive) (fun _ => hite (fun hd h => ?_) fun hd => ?_) h
  · exact ((settles_documentMark (by split <;> rfl)).rel h).sound hd hl
  refine hite (hone (settles_flowStart · rfl) rfl) fun _ =>
    hite (hone (settles_flowStart · rfl) rfl) fun _ => ?_
  refine hite (hone (settles_flowEnd · rfl) rfl) fun _ =>
    hite (hone (settles_flowEnd · rfl) rfl) fun _ => ?_
  refine hite (hone settles_flowEntry rfl) fun _ => ?_
  refine hite (fun hc => hone settles_blockEntry rfl (by simp at hc; exact hc.1)) fun _ => ?_
  refine hite (fun hc => hone settles_keyIndicator rfl (by simp at hc; exact hc.1)) fun _ => ?_
  refine hite (fun hc => hone settles_valueIndicator rfl (by simp at hc; exact hc.1)) fun _ => ?_
  refine hite (fun _ => ?_) fun _ => hite (fun _ => ?_) fun _ => hite (fun _ => ?_) fun _ => ?_
  · exact sound_keyToken hl Scan.takes_aliasOf.keeps Scan.begins_aliasOf
      (by rintro _ ⟨_, rfl⟩; simp)
      (fun t c hs =>
        .of_not_scalar (by obtain ⟨_, name, hk⟩ := Scan.begins_aliasOf _ _ _ hs; simp [hk]))
      fun t c hs => Or.inl (Or.inr (Scan.closes_aliasOf.rel hs))
  · exact sound_keyToken hl Scan.takes_anchor.keeps Scan.begins_anchor (by rintro _ ⟨_, rfl⟩; simp)
      (fun t c hs =>
        .of_not_scalar (by obtain ⟨_, name, hk⟩ := Scan.begins_anchor _ _ _ hs; simp [hk]))
      fun t c hs => Or.inl (Or.inr (Scan.closes_anchor.rel hs))
  · exact sound_keyToken hl (Scan.takes_tag _).keeps (Scan.begins_tag _)
      (by rintro _ ⟨_, _, rfl⟩; simp)
      (fun t c hs =>
        .of_not_scalar (by obtain ⟨_, handle, suffix, hk⟩ := Scan.begins_tag _ _ _ _ hs; simp [hk]))
      fun t c hs => Or.inl (Or.inl (Scan.startless_tag hs))
  refine hite (fun _ => hany (settles_blockScalar _)) fun _ =>
    hite (fun _ => hany (settles_blockScalar _)) fun _ => ?_
  refine hite (fun hc => ?_) fun _ => hite (fun hc => ?_) fun _ h => ?_
  · exact sound_quoted hl (by rw [hr, hc]; rfl)
  · exact sound_quoted hl (by rw [hr, hc]; rfl)
  · split at h
    · rename_i hs
      exact sound_plainScalar hl hr hs (by simpa using hd) h
    · cases h

/-- A step of a lexer that has begun leaves it sound, unless it ends the stream. -/
theorem sound_step (ho : l.Open) (hl : l.Sound text) (h : step l = .ok ((), l')) :
    l'.Tidy text ∧ (l'.ended = false → l'.Sound text) := by
  obtain ⟨l₁, l₂, l₃, l₄, hgap, hexpire, hclose, _, h, hlast⟩ := step_parts ho.started h
  have h₂ := (forgets_expireKeys.rel hexpire).sound (((skips_skipGap _).rel hgap).sound hl)
  have h₃ := sound_closeBlocks h₂ hclose
  rcases h with ⟨_, hend⟩ | ⟨c, more, hr, htoken⟩
  · have he := ended_streamEnd hend
    obtain ⟨pending, hp, rfl⟩ := forgets_expireKeys.rel hlast
    exact ⟨(tidy_streamEnd h₃.tidy hend).forget hp, fun hopen =>
      absurd (he.symm.trans hopen) (by simp)⟩
  · have hs := (forgets_expireKeys.rel hlast).sound (sound_tokenAt h₃ hr htoken)
    exact ⟨hs.tidy, fun _ => hs⟩

/-- The first step looks at no character of the text. -/
theorem sound_streamStart (hall : ∀ c ∈ text, isAllowed c = true)
    (h : step (.ofText text) = .ok ((), l)) : l.Sound text := by
  obtain ⟨_, l₁, h₁, h⟩ := ok_of_bind h
  obtain ⟨c, hc, rfl⟩ := scan_ok h₁
  rw [Scan.stays_need 1 _ _ _ hc, get_bind] at h
  obtain ⟨_, l₂, h₂, h⟩ := ok_of_bind h
  cases h₂
  refine (forgets_expireKeys.rel h).sound ?_
  have hcursor := Cursor.ofText_of_allowed hall
  have htidy :
      Yaml.Tidy text ⟨text, .start, none, text.length + 1⟩ [⟨.streamStart, .start, .start⟩] 1 [] :=
    ⟨⟨[], rfl, rfl⟩, Nat.lt_succ_self _, rfl, by simp [Token.Kind.isPart],
      ⟨_, rfl, rfl⟩, by simpa using .of_not_part rfl,
      ⟨fun h => absurd h (Token.not_isTight rfl), trivial⟩, by simp, .nil⟩
  refine ⟨?_, ?_⟩
  · change Yaml.Tidy text (Cursor.ofText text)
      [⟨.streamStart, (Cursor.ofText text).mark, (Cursor.ofText text).mark⟩] 1 []
    rw [hcursor]
    exact htidy
  · rintro ⟨front, q, hf, _⟩
    change text = front ++ q :: (Cursor.ofText text).rest at hf
    rw [hcursor] at hf
    have := congrArg List.length hf
    simp only [List.length_append, List.length_cons] at this
    omega

end Lex

/-! ## Runs -/

theorem Lexer.run_tidy {text : List Char} : (fuel : Nat) → {l : Lexer} → l.Open → l.Sound text →
    (Lexer.run fuel l).1.Tidy text
  | 0, _, _, hs => hs.tidy
  | fuel + 1, l, ho, hs => by
      rw [Lexer.run, if_neg (by simp [ho.ended])]
      cases h : Lex.step l with
      | error problem => exact hs.tidy
      | ok r =>
          obtain ⟨⟨⟩, l'⟩ := r
          obtain ⟨htidy, hsound⟩ := Lex.sound_step ho hs h
          simp only
          rcases Lex.step_open_ends ho h with ⟨he, _⟩ | ⟨hl, _⟩
          · cases fuel with
            | zero => exact htidy
            | succ fuel => rw [Lexer.run, if_pos he]; exact htidy
          · have ho' := ho.onward (fun _ _ h => h) hl
            exact run_tidy fuel ho' (hsound ho'.ended)

/-! ## Tokens of a text -/

/-- What holds of the tokens of a text, in their order. -/
structure Tokens.Laid (text : List Char) (ts : List Token) : Prop where
  first : ∀ t ∈ ts.head?, t.kind.endsNode = false
  parts : ((ts.filter (·.kind.isPart)).map (·.start.offset)).Pairwise (· ≤ ·)
  sourced : ∀ t ∈ ts, t.Sourced text
  apart : ∀ pre t post, ts = pre ++ t :: post → t.IsTight text →
    ∃ b ∈ pre.getLast?, b.kind.endsNode = true

theorem Token.Apart.at {text : List Char} {t : Token} {older : List Token} :
    {newer : List Token} → Apart text (newer ++ t :: older) → t.IsTight text →
    ∃ b ∈ older.head?, b.kind.endsNode = true
  | [], h => h.1
  | _ :: _, h => Apart.at h.2

theorem Lexer.Tidy.laid {text : List Char} {l : Lexer} (h : l.Tidy text) (n : Nat) :
    Tokens.Laid text (l.tokens.reverse.take n) where
  first t ht := by
    obtain ⟨x, hx, he⟩ := h.first
    cases n with
    | zero => cases ht
    | succ n =>
        rw [List.head?_take, if_neg (Nat.succ_ne_zero n), List.head?_reverse,
          Option.mem_def.mp hx] at ht
        cases ht
        exact he
  parts := by
    have hparts := (List.pairwise_cons.mp h.parts).2
    have hsub :=
      ((List.take_sublist n l.tokens.reverse).filter (·.kind.isPart)).map (·.start.offset)
    refine List.Pairwise.sublist hsub ?_
    rw [List.filter_reverse, List.map_reverse, List.pairwise_reverse]
    exact hparts
  sourced t ht := h.sourced t (List.mem_reverse.mp (List.mem_of_mem_take ht))
  apart pre t post heq ht := by
    have hsplit := List.take_append_drop n l.tokens.reverse
    rw [heq, List.append_assoc] at hsplit
    have hrev := congrArg List.reverse hsplit
    rw [List.reverse_reverse, List.reverse_append, List.cons_append, List.reverse_cons,
      List.append_assoc, List.singleton_append] at hrev
    have hapart := h.apart
    rw [← hrev] at hapart
    obtain ⟨b, hb, he⟩ := hapart.at ht
    exact ⟨b, by rwa [List.head?_reverse] at hb, he⟩

theorem Tokens.ofText_laid {text : List Char} (hall : ∀ c ∈ text, isAllowed c = true) :
    Laid text (Tokens.ofText text).list := by
  unfold Tokens.ofText
  rw [Lexer.run, if_neg (by simp [Lexer.ofText])]
  cases h : Lex.step (.ofText text) with
  | error problem =>
      exact ⟨by simp [Lexer.ofText], by simp [Lexer.ofText], by simp [Lexer.ofText],
        fun pre t post heq => by
      simp [Lexer.ofText] at heq⟩
  | ok r =>
      obtain ⟨⟨⟩, l⟩ := r
      exact (Lexer.run_tidy _ (Lex.open_streamStart h).1 (Lex.sound_streamStart hall h)).laid _

end BootConfig.Yaml
