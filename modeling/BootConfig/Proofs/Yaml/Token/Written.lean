import BootConfig.Proofs.Yaml.Resolved
import BootConfig.Proofs.Yaml.Token.Spelled

/-!
# The tokens of a written tree

The lexer reads the text of a standard tree as the tokens that spell the tree, in no more steps than
there are characters, and behind the text of a whole document it ends with all tokens released.
-/

namespace BootConfig.Yaml

open Json Steps
open Yaml.Lex (Covers IsSimple IsGapText isGapText_nil)
open Scan (IsWord Ends)

/-! ## Runs of the lexer -/

/-- A lexer reads tokens, in no more steps than it takes characters. -/
def Reads (l l' : Lexer) (tokens : List Token) : Prop :=
  l'.tokens = tokens.reverse ++ l.tokens ∧
    ∃ n, n + l'.cursor.rest.length ≤ l.cursor.rest.length ∧
      ∀ fuel, Lexer.run (n + fuel) l = Lexer.run fuel l'

theorem Reads.refl (l : Lexer) : Reads l l [] := ⟨rfl, 0, by omega, fun _ => by rw [Nat.zero_add]⟩

theorem Reads.trans {l₁ l₂ l₃ : Lexer} {a b : List Token} (h : Reads l₁ l₂ a) (h' : Reads l₂ l₃ b) :
    Reads l₁ l₃ (a ++ b) := by
  obtain ⟨ht, n, hn, hr⟩ := h
  obtain ⟨ht', n', hn', hr'⟩ := h'
  refine ⟨by rw [ht', ht, List.reverse_append, List.append_assoc], n + n', by omega, fun fuel => ?_⟩
  rw [Nat.add_assoc, hr, hr']

theorem Reads.of_step {l l' : Lexer} {tokens : List Token} (hs : Lex.step l = .ok ((), l'))
    (he : l.ended = false) (hl : l'.cursor.rest.length < l.cursor.rest.length)
    (ht : l'.tokens = tokens.reverse ++ l.tokens) : Reads l l' tokens := by
  refine ⟨ht, 1, by omega, fun fuel => ?_⟩
  rw [Nat.add_comm, Lexer.run, if_neg (by simp [he]), hs]

theorem Reads.of_steps {l l₁ l₂ : Lexer} {tokens : List Token} (h₁ : Lex.step l = .ok ((), l₁))
    (h₂ : Lex.step l₁ = .ok ((), l₂)) (he : l.ended = false) (he₁ : l₁.ended = false)
    (hl₁ : l₁.cursor.rest.length < l.cursor.rest.length)
    (hl₂ : l₂.cursor.rest.length < l₁.cursor.rest.length)
    (ht : l₂.tokens = tokens.reverse ++ l.tokens) : Reads l l₂ tokens := by
  refine ⟨ht, 2, by omega, fun fuel => ?_⟩
  rw [Nat.add_comm, Lexer.run, if_neg (by simp [he]), h₁]
  change Lexer.run (fuel + 1) l₁ = _
  rw [Lexer.run, if_neg (by simp [he₁]), h₂]

section Places

variable {text gap rest more : List Char} {depth : Nat} {l : Lexer} {c : Char}

theorem At.rest_eq (h : At text rest depth l) : l.cursor.rest = rest := by
  obtain ⟨m, b, pending, _, hl⟩ := h
  rw [hl]
  rfl

theorem At.ended (h : At text rest depth l) : l.ended = false := by
  obtain ⟨m, b, pending, _, hl⟩ := h
  rw [hl]
  rfl

theorem At.stands (h : At text rest depth l) : Stands text [] rest depth l := .before h

theorem Stands.rest_le (h : Stands text gap rest depth l) : rest.length ≤ l.cursor.rest.length := by
  cases h with
  | before h =>
      rw [h.rest_eq]
      exact (List.sublist_append_right gap rest).length_le
  | behind h _ => exact Nat.le_of_eq (by rw [h.rest_eq])

theorem Stands.le_rest (h : Stands text gap rest depth l) :
    l.cursor.rest.length ≤ (gap ++ rest).length := by
  cases h with
  | before h => exact Nat.le_of_eq (by rw [h.rest_eq])
  | behind h _ =>
      rw [h.rest_eq]
      exact (List.sublist_append_right gap rest).length_le

theorem Stands.ended (h : Stands text gap rest depth l) : l.ended = false := by
  cases h with
  | before h => exact h.ended
  | behind h _ => exact h.ended

theorem Reads.of_token {l' : Lexer} {t : Token} (h : Stands text gap (c :: more) depth l)
    (hs : Lex.step l = .ok ((), l')) (hl : l'.cursor.rest.length ≤ more.length)
    (ht : l'.tokens = t :: l.tokens) : Reads l l' [t] := by
  have hle := h.rest_le
  rw [List.length_cons] at hle
  exact .of_step hs h.ended (by omega) ht

/-! ## Single tokens -/

theorem reads_open (h : Stands text gap (c :: more) depth l) (hg : IsGapText gap)
    {kind : Token.Kind}
    (hc : (c = '[' ∧ kind = .flowSequenceStart) ∨ (c = '{' ∧ kind = .flowMappingStart)) :
    ∃ l' t, Reads l l' [t] ∧ At text more (depth + 1) l' ∧ l'.keyAllowed = true ∧
      t.kind = kind := by
  obtain ⟨l', t, hs, hat, hk, ht, htok⟩ := Lex.step_open h hg hc
  exact ⟨l', t, .of_token h hs (Nat.le_of_eq (by rw [hat.rest_eq])) htok, hat, hk, ht⟩

theorem reads_close (h : Stands text gap (c :: more) (depth + 1) l) (hg : IsGapText gap)
    {kind : Token.Kind}
    (hc : (c = ']' ∧ kind = .flowSequenceEnd) ∨ (c = '}' ∧ kind = .flowMappingEnd)) :
    ∃ l' t, Reads l l' [t] ∧ At text more depth l' ∧ t.kind = kind := by
  obtain ⟨l', t, hs, hat, ht, htok⟩ := Lex.step_close h hg hc
  exact ⟨l', t, .of_token h hs (Nat.le_of_eq (by rw [hat.rest_eq])) htok, hat, ht⟩

theorem reads_comma (h : Stands text [] (',' :: more) depth l) :
    ∃ l' t, Reads l l' [t] ∧ At text more depth l' ∧ l'.keyAllowed = true ∧
      t.kind = .flowEntry := by
  obtain ⟨l', t, hs, hat, hk, ht, htok⟩ := Lex.step_comma h
  exact ⟨l', t, .of_token h hs (Nat.le_of_eq (by rw [hat.rest_eq])) htok, hat, hk, ht⟩

theorem length_lt_writeString (s : String) (tail : List Char) :
    tail.length + 1 < (writeString s tail).length := by
  simp only [writeString, List.length_cons, List.length_append]
  omega

theorem reads_string {s : String} {u : List Char} (hs : refold? s.toList = some u)
    (h : Stands text gap (writeString s more) depth l) (hg : IsGapText gap) :
    ∃ l' t, Reads l l' [t] ∧ At text more depth l' ∧
      SpellsScalar (String.ofList text).toUTF8 .doubleQuoted t (.str (String.ofList u)) := by
  obtain ⟨l', t, hstep, hat, ht, hc, htok⟩ := Lex.step_string s hs h hg
  have hl := length_lt_writeString s more
  refine ⟨l', t, ?_, hat, _, ht, scalar_quoted hs hc⟩
  exact .of_token h hstep (by
    rw [hat.rest_eq]
    simp only [List.length_append, List.length_cons]
    omega) htok

theorem reads_word {word gap' : List Char} {t : Tree} (hw : IsWord word)
    (ht : Resolve.plain? (String.ofList word) = some t)
    (h : Stands text gap (word ++ (gap' ++ rest)) depth l) (hg : IsGapText gap)
    (hg' : IsGapText gap')
    (hl : gap' = [] ∨ '\n' ∈ gap') (hr : Ends (depth != 0) rest) (input : ByteArray) :
    ∃ l' token, Reads l l' [token] ∧ Stands text gap' rest depth l' ∧
      SpellsScalar input .plain token t := by
  obtain ⟨l', token, hs, hstands, hk, htok⟩ := Lex.step_word hw h hg hg' hl hr
  refine ⟨l', token, ?_, hstands, _, hk, scalar_plain ht _ _⟩
  obtain ⟨c, cs, rfl⟩ := List.exists_cons_of_ne_nil hw.ne_nil
  have hle := hstands.le_rest
  have h' : Stands text gap (c :: (cs ++ (gap' ++ rest))) depth l := h
  exact .of_token h' hs (by simp only [List.length_append] at hle ⊢; omega) htok

theorem reads_name {s : String} {u : List Char} (hs : refold? s.toList = some u)
    (h : Stands text gap (writeString s (':' :: ' ' :: more)) depth l) (hg : IsGapText gap)
    (hn : '\n' ∈ gap) (hd : depth ≠ 0)
    (hk : l.keyAllowed = true) :
    ∃ l' keys key colon, Reads l l' (keys ++ [key, colon]) ∧ At text (' ' :: more) depth l' ∧
      Keyed s keys ∧ SpellsScalar (String.ofList text).toUTF8 .doubleQuoted key
      (.str (String.ofList u)) ∧ colon.kind = .value := by
  have hl := length_lt_writeString s (':' :: ' ' :: more)
  have hle := h.rest_le
  simp only [List.length_cons] at hl
  by_cases hsimple : IsSimple s
  · obtain ⟨l₁, l₂, v, t, k, h₁, hat₁, h₂, hat₂, htok, hv, hkey, ht, hc⟩ :=
      Lex.step_key hs hsimple h hg hd hk
    refine ⟨l₂, [k], t, v, ?_, hat₂, Or.inl ⟨hsimple, k, rfl, hkey⟩,
      ⟨_, ht, scalar_quoted hs hc⟩, hv⟩
    exact .of_steps h₁ h₂ h.ended hat₁.ended
      (by rw [hat₁.rest_eq]; simp only [List.length_cons]; omega)
      (by rw [hat₁.rest_eq, hat₂.rest_eq]; simp) htok
  · obtain ⟨l₁, l₂, v, t, h₁, hat₁, h₂, hat₂, htok, hv, ht, hc⟩ :=
      Lex.step_name hs hsimple h hg hn hd
    refine ⟨l₂, [], t, v, ?_, hat₂, Or.inr ⟨hsimple, rfl⟩, ⟨_, ht, scalar_quoted hs hc⟩, hv⟩
    exact .of_steps h₁ h₂ h.ended hat₁.ended
      (by rw [hat₁.rest_eq]; simp only [List.length_cons]; omega)
      (by rw [hat₁.rest_eq, hat₂.rest_eq]; simp) htok

end Places

/-! ## Words -/

theorem isWord_digits {ds : List Char} (h : Double.IsDigits ds) {cs : List Char}
    (hc : ∀ c ∈ cs, Scan.isWordChar c = true) : IsWord (ds ++ cs) ∧ IsWord ('-' :: (ds ++ cs)) := by
  cases ds with
  | nil => exact absurd rfl h.ne_nil
  | cons d ds =>
      have hd := h.digit d (by simp)
      have hall : ∀ c ∈ ds ++ cs, Scan.isWordChar c = true := fun c hm => by
        rcases List.mem_append.mp hm with hm | hm
        · simp [Scan.isWordChar, Char.isAlphanum, h.digit c (List.mem_cons_of_mem _ hm)]
        · exact hc c hm
      exact ⟨.word (by simp [Scan.startsWord, hd]) hall, .signed hd hall⟩

theorem isWord_int (n : Int) : IsWord (intText n).toList := by
  have hnil : ∀ c ∈ [], Scan.isWordChar c = true := fun _ h => absurd h List.not_mem_nil
  have h := isWord_digits (.of_toDigits n.natAbs) hnil
  rw [List.append_nil] at h
  rw [toList_intText]
  split
  · exact h.2
  · exact h.1

theorem isWord_spelling {cs : List Char} (h : Double.Spelling cs) :
    IsWord cs ∧ IsWord ('-' :: cs) := by
  have hd : ∀ {ds}, Double.IsDigits ds → ∀ c ∈ ds, Scan.isWordChar c = true := fun h c hm => by
    simp [Scan.isWordChar, Char.isAlphanum, h.digit c hm]
  have he : ∀ {sign ds}, sign = '+' ∨ sign = '-' → Double.IsDigits ds →
      ∀ c ∈ 'e' :: sign :: ds, Scan.isWordChar c = true :=
    fun hs h =>
      List.forall_mem_cons.mpr ⟨rfl,
      List.forall_mem_cons.mpr ⟨by rcases hs with rfl | rfl <;> rfl, hd h⟩⟩
  cases h with
  | fraction hw hf => exact isWord_digits hw.toIsDigits (List.forall_mem_cons.mpr ⟨rfl, hd hf⟩)
  | exponent hw hs hx => exact isWord_digits hw.toIsDigits (he hs hx)
  | both hw hf hs hx =>
      refine isWord_digits hw.toIsDigits (List.forall_mem_cons.mpr ⟨rfl, fun c hm => ?_⟩)
      rcases List.mem_append.mp hm with hm | hm
      · exact hd hf c hm
      · exact he hs hx c hm

theorem isWord_float {x : Double} (h : x.isFinite = true) : IsWord x.text.toList := by
  cases x with
  | nan => cases h
  | infinite _ => cases h
  | finite negative significand exponent =>
      have hs := isWord_spelling (Double.spelling_unsignedText significand exponent)
      rw [Double.toList_text]
      split
      · exact hs.2
      · exact hs.1

/-! ## What stands behind a value -/

/-- A gap with a line break, if it is not empty, and then the end of an entry or of the text. -/
structure Follows (inFlow : Bool) (gap rest : List Char) : Prop where
  gapText : IsGapText gap
  line : gap = [] ∨ '\n' ∈ gap
  ends : Ends inFlow rest

theorem isGapText_newline (level : Nat) : IsGapText (newline level []) := by
  intro c hc
  simp only [newline, List.append_nil, List.mem_cons] at hc
  rcases hc with rfl | hc
  · exact Or.inr rfl
  · exact Or.inl (List.eq_of_mem_replicate hc)

theorem isGapText_space : IsGapText [' '] := by simp [IsGapText]

theorem newline_eq (level : Nat) (tail : List Char) :
    newline level tail = newline level [] ++ tail := by
  simp [newline]

theorem mem_newline (level : Nat) : '\n' ∈ newline level [] := by simp [newline]

/-- The gap behind an item, in front of the others. -/
def gapBehind {α : Type} (outer : Nat) : List α → List Char
  | [] => newline outer []
  | _ :: _ => []

/-- The items behind an item, from the comma or bracket on. -/
def itemsBehind (level outer : Nat) (tail : List Char) : List Tree → List Char
  | [] => ']' :: tail
  | t :: ts => writeItems level (t :: ts) (newline outer (']' :: tail))

/-- The entries behind an entry, from the comma or bracket on. -/
def entriesBehind (level outer : Nat) (tail : List Char) : Entries → List Char
  | [] => '}' :: tail
  | e :: es => writeEntries level (e :: es) (newline outer ('}' :: tail))

theorem writeItems_behind (level outer : Nat) (ts : List Tree) (tail : List Char) :
    writeItems level ts (newline outer (']' :: tail)) =
      gapBehind outer ts ++ itemsBehind level outer tail ts := by
  cases ts with
  | nil => exact newline_eq _ _
  | cons t ts => rfl

theorem writeEntries_behind (level outer : Nat) (es : Entries) (tail : List Char) :
    writeEntries level es (newline outer ('}' :: tail)) =
      gapBehind outer es ++ entriesBehind level outer tail es := by
  cases es with
  | nil => exact newline_eq _ _
  | cons e es => rfl

theorem follows_items (level outer : Nat) (ts : List Tree) (tail : List Char) (depth : Nat) :
    Follows (depth + 1 != 0) (gapBehind outer ts) (itemsBehind level outer tail ts) := by
  cases ts with
  | nil => exact ⟨isGapText_newline _, Or.inr (mem_newline _), .cons rfl (Or.inr (Or.inl rfl)) _⟩
  | cons t ts => exact ⟨isGapText_nil, Or.inl rfl, .cons rfl (Or.inl rfl) _⟩

theorem follows_entries (level outer : Nat) (es : Entries) (tail : List Char) (depth : Nat) :
    Follows (depth + 1 != 0) (gapBehind outer es) (entriesBehind level outer tail es) := by
  cases es with
  | nil => exact ⟨isGapText_newline _, Or.inr (mem_newline _), .cons rfl (Or.inr (Or.inr rfl)) _⟩
  | cons e es => exact ⟨isGapText_nil, Or.inl rfl, .cons rfl (Or.inl rfl) _⟩

/-! ## Trees -/

section Trees

variable {text : List Char}

theorem lex_word {word gap gap' rest : List Char} {depth : Nat} {l : Lexer} {t t' : Tree}
    (hw : IsWord word) (ht : Resolve.plain? (String.ofList word) = some t') (hn : ∀ p, t.AllNames p)
    (hg : IsGapText gap)
    (hf : Follows (depth != 0) gap' rest) (h : Stands text gap (word ++ (gap' ++ rest)) depth l) :
    ∃ l' tokens, Reads l l' tokens ∧ Stands text gap' rest depth l' ∧
      Spells (String.ofList text).toUTF8 t t' tokens := by
  obtain ⟨l', token, hr, hs, hspell⟩ :=
    reads_word hw ht h hg hf.gapText hf.line hf.ends (String.ofList text).toUTF8
  exact ⟨l', [token], hr, hs, .scalar hspell hn⟩

/-- Wherever the text of a tree stands, it is read as tokens that spell another tree. -/
def Lexed (text : List Char) (level : Nat) (t t' : Tree) : Prop :=
  ∀ ⦃gap gap' rest : List Char⦄ ⦃depth : Nat⦄ ⦃l : Lexer⦄, IsGapText gap →
    Follows (depth != 0) gap' rest → Stands text gap (write level t (gap' ++ rest)) depth l →
    ∃ l' tokens, Reads l l' tokens ∧ Stands text gap' rest depth l' ∧
      Spells (String.ofList text).toUTF8 t t' tokens

/-- So are the items behind an item, up to the bracket. -/
def LexedItems (text : List Char) (level outer : Nat) (ts ts' : List Tree) : Prop :=
  ∀ ⦃tail : List Char⦄ ⦃depth : Nat⦄ ⦃l : Lexer⦄,
    Stands text (gapBehind outer ts) (itemsBehind level outer tail ts) (depth + 1) l →
    ∃ l' tokens, Reads l l' tokens ∧ Stands text (newline outer []) (']' :: tail) (depth + 1) l' ∧
      SpellsItems (String.ofList text).toUTF8 false ts ts' tokens

def LexedEntries (text : List Char) (level outer : Nat) (es es' : Entries) : Prop :=
  ∀ ⦃tail : List Char⦄ ⦃depth : Nat⦄ ⦃l : Lexer⦄,
    Stands text (gapBehind outer es) (entriesBehind level outer tail es) (depth + 1) l →
    ∃ l' tokens, Reads l l' tokens ∧ Stands text (newline outer []) ('}' :: tail) (depth + 1) l' ∧
      SpellsEntries (String.ofList text).toUTF8 false es es' tokens

section Members

variable {level outer depth : Nat} {tail : List Char} {l l₁ : Lexer} {first : Bool}
  {commas : List Token}

/-- An item, with the comma that may stand in front of it and the items behind it. -/
theorem Lexed.items {t t' : Tree} {ts ts' : List Tree} (ht : Lexed text level t t')
    (hts : LexedItems text level outer ts ts')
    (hc : Separates first commas) (hr : Reads l l₁ commas)
    (hat : At text
      (newline level (write level t (writeItems level ts (newline outer (']' :: tail)))))
      (depth + 1) l₁) :
    ∃ l' tokens, Reads l l' tokens ∧ Stands text (newline outer []) (']' :: tail) (depth + 1) l' ∧
      SpellsItems (String.ofList text).toUTF8 first (t :: ts) (t' :: ts') tokens := by
  rw [newline_eq, writeItems_behind] at hat
  obtain ⟨l₂, tokens, hr₂, hs₂, hspell⟩ :=
    ht (isGapText_newline _) (follows_items level outer ts tail _) (.before hat)
  obtain ⟨l₃, tokens', hr₃, hs₃, hspells⟩ := hts hs₂
  exact ⟨l₃, _, hr.trans (hr₂.trans hr₃), hs₃, .cons hc hspell hspells⟩

/-- An entry, with the comma that may stand in front of it and the entries behind it. -/
theorem Lexed.entries {name : String} {cs : List Char} {v v' : Tree} {es es' : Entries}
    (hcs : refold? name.toList = some cs) (hv : Lexed text level v v')
    (hes : LexedEntries text level outer es es') (hc : Separates first commas)
    (hr : Reads l l₁ commas)
    (hat : At text
      (newline level (writeString name
        (':' :: ' ' :: write level v (writeEntries level es (newline outer ('}' :: tail))))))
      (depth + 1) l₁) (hk : l₁.keyAllowed = true) :
    ∃ l' tokens, Reads l l' tokens ∧ Stands text (newline outer []) ('}' :: tail) (depth + 1) l' ∧
      SpellsEntries (String.ofList text).toUTF8 first ((.str name, v) :: es)
      ((.str (String.ofList cs), v') :: es') tokens := by
  rw [newline_eq, writeEntries_behind] at hat
  obtain ⟨l₂, keys, key, colon, hr₂, hat₂, hkeys, hkey, hcolon⟩ :=
    reads_name hcs (.before hat) (isGapText_newline _) (mem_newline _) (by omega) hk
  obtain ⟨l₃, tokens, hr₃, hs₃, hspell⟩ :=
    hv isGapText_space (follows_entries level outer es tail _) (.before hat₂)
  obtain ⟨l₄, tokens', hr₄, hs₄, hspells⟩ := hes hs₃
  refine ⟨l₄, commas ++ (keys ++ key :: colon :: (tokens ++ tokens')), ?_, hs₄,
    .cons hc hkeys hkey hcolon hspell hspells⟩
  simpa using hr.trans (hr₂.trans (hr₃.trans hr₄))

end Members

mutual

theorem lex_tree (level : Nat) : (t : Tree) → {t' : Tree} → t.Standard → reread? t = some t' →
    Lexed text level t t'
  | .null, _, _, ht => by
      cases ht
      have hw : IsWord ['n', 'u', 'l', 'l'] := .word rfl (List.all_eq_true.mp rfl)
      exact fun _ _ _ _ _ hg hf h => lex_word hw rfl (fun _ => trivial) hg hf h
  | .bool b, _, _, ht => by
      cases ht
      have hw : IsWord (boolText b).toList := by
        cases b <;> exact .word rfl (List.all_eq_true.mp rfl)
      exact fun _ _ _ _ _ hg hf h =>
        lex_word hw (by rw [String.ofList_toList]; exact plain?_bool b) (fun _ => trivial) hg hf h
  | .int n, _, hn, ht => by
      cases ht
      exact fun _ _ _ _ _ hg hf h =>
        lex_word (isWord_int n) (by rw [String.ofList_toList]; exact plain?_int hn) (fun _ =>
        trivial) hg hf h
  | .float x, _, hx, ht => by
      cases ht
      intro _ _ _ _ _ hg hf h
      simp only [write, hx.1, if_true] at h
      exact lex_word (isWord_float hx.1) (by rw [String.ofList_toList]; exact hx.2) (fun _ =>
        trivial) hg hf h
  | .str s, _, _, ht => by
      obtain ⟨u, hu, rfl⟩ := Option.map_eq_some_iff.mp ht
      obtain ⟨cs, hcs, rfl⟩ := refoldText?_eq_some.mp hu
      intro _ _ _ _ _ hg _ h
      obtain ⟨l', token, hr, hat, hspell⟩ := reads_string hcs h hg
      exact ⟨l', [token], hr, .before hat, .scalar hspell fun _ => trivial⟩
  | .seq [], _, _, ht => by
      cases ht
      intro _ _ _ _ _ hg _ h
      obtain ⟨l₁, start, hr₁, hat₁, _, hstart⟩ := reads_open h hg (Or.inl ⟨rfl, rfl⟩)
      obtain ⟨l₂, stop, hr₂, hat₂, hstop⟩ :=
        reads_close hat₁.stands isGapText_nil (Or.inl ⟨rfl, rfl⟩)
      exact ⟨l₂, _, hr₁.trans hr₂, .before hat₂, .seq hstart .nil hstop⟩
  | .seq (t :: ts), _, hd, ht => by
      obtain ⟨items', hitems, rfl⟩ := Option.map_eq_some_iff.mp ht
      obtain ⟨t', ts', ht', hts', rfl⟩ := rereadItems?_cons.mp hitems
      intro _ _ _ _ _ hg _ h
      obtain ⟨l₁, start, hr₁, hat₁, _, hstart⟩ := reads_open h hg (Or.inl ⟨rfl, rfl⟩)
      have hfirst : Separates true [] := rfl
      obtain ⟨l₂, tokens, hr₂, hs₂, hspells⟩ :=
        (lex_tree (level + 1) t hd.1 ht').items (lex_items (level + 1) level ts hd.2 hts')
        hfirst (.refl l₁) hat₁
      obtain ⟨l₃, stop, hr₃, hat₃, hstop⟩ :=
        reads_close hs₂ (isGapText_newline _) (Or.inl ⟨rfl, rfl⟩)
      exact ⟨l₃, _, hr₁.trans (hr₂.trans hr₃), .before hat₃, .seq hstart hspells hstop⟩
  | .map [], _, _, ht => by
      cases ht
      intro _ _ _ _ _ hg _ h
      obtain ⟨l₁, start, hr₁, hat₁, _, hstart⟩ := reads_open h hg (Or.inr ⟨rfl, rfl⟩)
      obtain ⟨l₂, stop, hr₂, hat₂, hstop⟩ :=
        reads_close hat₁.stands isGapText_nil (Or.inr ⟨rfl, rfl⟩)
      exact ⟨l₂, _, hr₁.trans hr₂, .before hat₂, .map hstart .nil hstop⟩
  | .map ((k, v) :: es), _, hd, ht => by
      obtain ⟨⟨name, rfl⟩, hv, hes⟩ := hd
      obtain ⟨entries', hentries, rfl⟩ := Option.map_eq_some_iff.mp ht
      obtain ⟨cs, v', es', hcs, hv', hes', rfl⟩ := rereadEntries?_cons.mp hentries
      intro _ _ _ _ _ hg _ h
      obtain ⟨l₁, start, hr₁, hat₁, hka, hstart⟩ := reads_open h hg (Or.inr ⟨rfl, rfl⟩)
      have hfirst : Separates true [] := rfl
      obtain ⟨l₂, tokens, hr₂, hs₂, hspells⟩ :=
        (lex_tree (level + 1) v hv hv').entries hcs (lex_entries (level + 1) level es hes hes')
        hfirst (.refl l₁) hat₁ hka
      obtain ⟨l₃, stop, hr₃, hat₃, hstop⟩ :=
        reads_close hs₂ (isGapText_newline _) (Or.inr ⟨rfl, rfl⟩)
      exact ⟨l₃, _, hr₁.trans (hr₂.trans hr₃), .before hat₃, .map hstart hspells hstop⟩

theorem lex_items (level outer : Nat) : (ts : List Tree) → {ts' : List Tree} →
    Tree.StandardItems ts → rereadItems? ts = some ts' → LexedItems text level outer ts ts'
  | [], _, _, ht => by
      cases ht
      exact fun _ _ l h => ⟨l, [], .refl l, h, .nil⟩
  | t :: ts, _, hd, ht => by
      obtain ⟨t', ts', ht', hts', rfl⟩ := rereadItems?_cons.mp ht
      intro _ _ _ h
      obtain ⟨l₁, comma, hr₁, hat₁, _, hcomma⟩ := reads_comma h
      have hlater : Separates false [comma] := ⟨comma, rfl, hcomma⟩
      exact (lex_tree level t hd.1 ht').items (lex_items level outer ts hd.2 hts') hlater hr₁ hat₁

theorem lex_entries (level outer : Nat) : (es : Entries) → {es' : Entries} →
    Tree.StandardEntries es → rereadEntries? es = some es' → LexedEntries text level outer es es'
  | [], _, _, ht => by
      cases ht
      exact fun _ _ l h => ⟨l, [], .refl l, h, .nil⟩
  | (k, v) :: es, _, hd, ht => by
      obtain ⟨⟨name, rfl⟩, hv, hes⟩ := hd
      obtain ⟨cs, v', es', hcs, hv', hes', rfl⟩ := rereadEntries?_cons.mp ht
      intro _ _ _ h
      obtain ⟨l₁, comma, hr₁, hat₁, hka, hcomma⟩ := reads_comma h
      have hlater : Separates false [comma] := ⟨comma, rfl, hcomma⟩
      exact (lex_tree level v hv hv').entries hcs (lex_entries level outer es hes hes') hlater
        hr₁ hat₁ hka

end

end Trees

/-! ## Documents -/

section Documents

variable {text : List Char}

theorem run_ended {l : Lexer} (h : l.ended = true) (fuel : Nat) : Lexer.run fuel l = (l, none) := by
  cases fuel with
  | zero => rfl
  | succ fuel => rw [Lexer.run, if_pos h]

theorem step_start_eq (h : ∀ c ∈ text, isAllowed c = true) : Lex.step (.ofText text) =
    .ok ((), Lexer.between text .start (text.length + 1) 0 [] true
      [⟨.streamStart, .start, .start⟩]) := by
  unfold Lexer.ofText
  rw [Cursor.ofText_of_allowed h]
  rfl

theorem step_start (h : ∀ c ∈ text, isAllowed c = true) :
    ∃ l t, Lex.step (.ofText text) = .ok ((), l) ∧ At text text 0 l ∧ t.kind = .streamStart ∧
      l.tokens = [t] :=
  ⟨_, _, step_start_eq h, ⟨_, _, _, ⟨⟨[], rfl, rfl⟩, by omega, by simp [Optional], by simp⟩, rfl⟩,
    rfl, rfl⟩

/-- At the end of the text no key is possible any more: the end counts as the start of a line. -/
theorem streamEnd_between (m : Mark) (b : Nat) {pending : List PendingKey} (keyAllowed : Bool)
    (tokens : List Token) (hp : Optional pending)
    (hlast : pending = [] ∨ m.column ≠ 0 ∧ ∀ k ∈ pending, k.mark.line ≤ m.line) :
    ∃ m', (Lex.streamEnd >>= fun _ => Lex.expireKeys)
        (Lexer.between [] m b 0 pending keyAllowed tokens) =
      .ok ((), { Lexer.between [] m' b 0 [] false (⟨.streamEnd, m', m'⟩ :: tokens) with
        ended := true }) := by
  have hstart : ∃ m' : Mark, (m.column ≠ 0 → m.line < m'.line) ∧
      Lex.streamEnd (Lexer.between [] m b 0 pending keyAllowed tokens) =
      (Lex.dropKey >>= fun _ => Lex.allowKey false >>= fun _ => Lex.mark >>= fun here =>
        Lex.emit ⟨.streamEnd, here, here⟩ >>= fun _ =>
        modify ({ · with ended := true })) (Lexer.between [] m' b 0 pending keyAllowed tokens) := by
    -- a line on which something stands is ended first
    by_cases hcol : m.column = 0
    · refine ⟨m, fun h => absurd hcol h, ?_⟩
      have hm : (Lexer.between [] m b 0 pending keyAllowed tokens).mark.column = 0 := hcol
      unfold Lex.streamEnd
      rw [modify_bind, if_pos hm, bind_ok (Lex.closeBlocks_between _)]
    · refine ⟨⟨m.offset, m.line + 1, 0⟩, fun _ => Nat.lt_succ_self _, ?_⟩
      have hm : (Lexer.between [] m b 0 pending keyAllowed tokens).mark.column ≠ 0 := hcol
      unfold Lex.streamEnd
      rw [modify_bind, if_neg hm]
      exact bind_ok (Lex.closeBlocks_between _)
  obtain ⟨m', hline, hstart⟩ := hstart
  obtain ⟨pending', hsub, hdrop⟩ := Lex.dropKey_between [] m' b 0 keyAllowed tokens hp
  have hstale : pending'.filter (!·.isStale m') = [] := by
    rcases hlast with rfl | ⟨hcol, hle⟩
    · rw [List.sublist_nil.mp hsub, List.filter_nil]
    · refine List.filter_eq_nil_iff.mpr fun k hk => ?_
      have hk := hle k (hsub.subset hk)
      have hm := hline hcol
      simp only [PendingKey.isStale, Bool.not_eq_true', Bool.or_eq_false_iff,
        decide_eq_false_iff_not]
      omega
  have hend : Lex.streamEnd (Lexer.between [] m b 0 pending keyAllowed tokens) =
      .ok ((), { Lexer.between [] m' b 0 pending' false (⟨.streamEnd, m', m'⟩ :: tokens) with
        ended := true }) := by
    rw [hstart, bind_ok hdrop, bind_ok (Lex.allowKey_between false), bind_ok Lex.mark_between,
      bind_ok (Lex.emit_between _)]
    rfl
  refine ⟨m', ?_⟩
  rw [bind_ok hend, Lex.expireKeys_optional fun k hk => hp k (hsub.subset hk)]
  exact congrArg (fun p => Except.ok
    ((), { Lexer.between [] m' b 0 p false (⟨.streamEnd, m', m'⟩ :: tokens) with ended := true }))
    hstale

/-- The stream ends behind a line without a break. -/
theorem step_end_of_line {m : Mark} {b : Nat} {pending : List PendingKey}
    (h : Placed text [] m b pending) (hcol : m.column ≠ 0)
    (keyAllowed : Bool) (tokens : List Token) :
    ∃ m', Lex.step (Lexer.between [] m b 0 pending keyAllowed tokens) =
      .ok ((), { Lexer.between [] m' b 0 [] false (⟨.streamEnd, m', m'⟩ :: tokens) with
        ended := true }) := by
  have hhere : Lex.AtToken [] := rfl
  obtain ⟨ka, _, hs⟩ :=
    Lex.step_between m b 0 keyAllowed tokens isGapText_nil hhere h.optional
      (Nat.lt_of_le_of_lt (Nat.zero_le _) h.bound)
  have h' : Placed text [] m b (pending.filter (!·.isStale m)) :=
    h.sub fun k hk => Or.inl (List.mem_filter.mp hk).1
  obtain ⟨m', hend⟩ := streamEnd_between m b ka tokens h'.optional (Or.inr ⟨hcol, h'.lines⟩)
  exact ⟨m', hs.trans hend⟩

/-- Behind the last line the stream ends, and no key is possible any more. -/
theorem step_end {gap : List Char} {l : Lexer} (h : Stands text gap [] 0 l) (hg : IsGapText gap)
    (hn : '\n' ∈ gap) :
    ∃ l' t, Lex.step l = .ok ((), l') ∧ l'.ended = true ∧ l'.released = l'.tokens.length ∧
      t.kind = .streamEnd ∧ l'.tokens = t :: l.tokens := by
  obtain ⟨gap', m, b, pending, hg', hlen, hp, hnil, hl⟩ := Lex.gap_ahead h hg
  obtain ⟨ka, _, hs⟩ :=
    Lex.step_between m b 0 l.keyAllowed l.tokens hg' (show Lex.AtToken [] from rfl) hp.optional hlen
  rw [hnil hn, ← hl] at hs
  obtain ⟨m', hend⟩ :=
    streamEnd_between (m.past gap') b ka l.tokens (fun _ h => absurd h List.not_mem_nil)
      (Or.inl rfl)
  exact ⟨_, _, by rw [hs]; exact hend, rfl, rfl, rfl, rfl⟩

/-- The tokens of the text of a standard tree. -/
theorem tokens_written {t t' : Tree} (hd : t.Standard) (ht : reread? t = some t')
    (h : ∀ c ∈ write 0 t ['\n'], isAllowed c = true) :
    ∃ start tokens stop, Tokens.ofText (write 0 t ['\n']) = ⟨start :: (tokens ++ [stop]), none⟩ ∧
      start.kind = .streamStart ∧ stop.kind = .streamEnd ∧
      Spells (String.ofList (write 0 t ['\n'])).toUTF8 t t' tokens := by
  obtain ⟨l₁, start, hs₁, hat₁, hstart, htok₁⟩ := step_start h
  have hfollows : Follows (0 != 0) ['\n'] [] := ⟨by simp [IsGapText], Or.inr (by simp), .nil⟩
  obtain ⟨l₂, tokens, ⟨htok₂, n, hn, hrun⟩, hs₂, hspell⟩ :=
    lex_tree 0 t hd ht isGapText_nil hfollows hat₁.stands
  obtain ⟨l₃, stop, hs₃, hended, hreleased, hstop, htok₃⟩ :=
    step_end hs₂ (by simp [IsGapText]) (by simp)
  refine ⟨start, tokens, stop, ?_, hstart, hstop, hspell⟩
  have hrest := hat₁.rest_eq
  obtain ⟨fuel, hfuel⟩ : ∃ fuel, (write 0 t ['\n']).length + 2 = (n + (fuel + 1)) + 1 :=
    ⟨(write 0 t ['\n']).length - n, by rw [← hrest]; omega⟩
  have hr : Lexer.run ((write 0 t ['\n']).length + 2) (.ofText (write 0 t ['\n'])) =
      (l₃, none) := by
    rw [hfuel, Lexer.run, if_neg (by simp [Lexer.ofText]), hs₁]
    change Lexer.run (n + (fuel + 1)) l₁ = _
    rw [hrun, Lexer.run, if_neg (by simp [hs₂.ended]), hs₃]
    exact run_ended hended fuel
  unfold Tokens.ofText
  rw [hr]
  change Tokens.mk (l₃.tokens.reverse.take l₃.released) none = _
  rw [hreleased, ← List.length_reverse, List.take_length, htok₃, htok₂, htok₁]
  simp

end Documents

end BootConfig.Yaml
