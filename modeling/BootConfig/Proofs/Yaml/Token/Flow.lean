import BootConfig.Proofs.Json.Written
import BootConfig.Proofs.Yaml.Token.Plain
import BootConfig.Yaml.Token.Stream

/-!
# Reading tokens in flow style

The steps of a lexer outside block collections. No token is required to be a key there, so possible
keys are only ever given up or, by a colon, used.
-/

namespace BootConfig.Yaml

open Steps

/-! ## States -/

namespace Lexer

/-- A lexer between two tokens, with no block collection open and nothing forbidden ahead. -/
def between (rest : List Char) (m : Mark) (b depth : Nat) (pending : List PendingKey)
    (keyAllowed : Bool) (tokens : List Token) : Lexer :=
  { cursor := ⟨rest, m, none, b⟩, started := true, ended := false, depth, columns := [], pending,
    keyAllowed, tokens, count := tokens.length }

end Lexer

open Lexer (between)

/-- No key of the list is required. -/
def Optional (pending : List PendingKey) : Prop := ∀ k ∈ pending, k.required = false

namespace Lex

variable {rest : List Char} {m : Mark} {b depth : Nat} {pending : List PendingKey}
  {keyAllowed : Bool} {tokens : List Token}

/-! ## Actions -/

theorem scan_between {α : Type} {s : Scan α} {a : α} {rest rest' : List Char} {m m' : Mark}
    {b : Nat} (depth : Nat) (pending : List PendingKey) (keyAllowed : Bool) (tokens : List Token)
    (h : s ⟨rest, m, none, b⟩ = .ok (a, ⟨rest', m', none, b⟩)) :
    scan s (between rest m b depth pending keyAllowed tokens) =
      .ok (a, between rest' m' b depth pending keyAllowed tokens) := by
  simp only [scan, between, h]

@[simp] theorem mark_between :
    Lex.mark (between rest m b depth pending keyAllowed tokens) =
      .ok (m, between rest m b depth pending keyAllowed tokens) := rfl

@[simp] theorem inFlow_between :
    Lex.inFlow (between rest m b depth pending keyAllowed tokens) =
      .ok (depth != 0, between rest m b depth pending keyAllowed tokens) := rfl

@[simp] theorem allowKey_between (allowed : Bool) :
    allowKey allowed (between rest m b depth pending keyAllowed tokens) =
      .ok ((), between rest m b depth pending allowed tokens) := rfl

@[simp] theorem emit_between (t : Token) :
    emit t (between rest m b depth pending keyAllowed tokens) =
      .ok ((), between rest m b depth pending keyAllowed (t :: tokens)) := rfl

@[simp] theorem indicator_between (kind : Token.Kind) (c : Char) :
    indicator kind 1 (between (c :: rest) m b depth pending keyAllowed tokens) =
      .ok ((), between rest (m.next c) b depth pending keyAllowed
        (⟨kind, m, m.next c⟩ :: tokens)) := rfl

theorem closeBlocks_between (column : Int) :
    closeBlocks column (between rest m b depth pending keyAllowed tokens) =
      .ok ((), between rest m b depth pending keyAllowed tokens) := by
  unfold closeBlocks
  rw [modify_apply]
  split <;> rfl

/-- Where no key is required, those out of reach are only given up. -/
theorem expireKeys_optional {l : Lexer} (hp : Optional l.pending) :
    expireKeys l = .ok ((), { l with pending := l.pending.filter (!·.isStale l.mark) }) := by
  unfold expireKeys
  rw [get_bind]
  split
  · have hn : l.pending.find? (fun k => k.required && k.isStale l.mark) = none :=
      List.find?_eq_none.mpr fun k hk => by simp [hp k hk]
    simp only [hn]
    rfl
  · rename_i h
    have hf : l.pending.filter (!·.isStale l.mark) = l.pending := by
      refine List.filter_eq_self.mpr fun k hk => ?_
      cases hs : k.isStale l.mark with
      | false => rfl
      | true => exact absurd (List.any_eq_true.mpr ⟨k, hk, hs⟩) h
    rw [hf]
    rfl

section Keys

variable (rest m b depth keyAllowed tokens)

theorem dropKey_between (hp : Optional pending) :
    ∃ pending', pending'.Sublist pending ∧
      dropKey (between rest m b depth pending keyAllowed tokens) =
        .ok ((), between rest m b depth pending' keyAllowed tokens) := by
  cases pending with
  | nil => exact ⟨[], .slnil, rfl⟩
  | cons k ks =>
      have hk : k.required = false := hp k (by simp)
      by_cases hd : k.depth = depth
      · exact ⟨ks, List.sublist_cons_self _ _,
          by simp [dropKey, bind_apply, between, Lexer.key?, hd, hk]⟩
      · exact ⟨k :: ks, List.Sublist.refl _, by simp [dropKey, bind_apply, between, Lexer.key?, hd]⟩

/-- A token that a key may begin with replaces the possible key of its depth. -/
theorem saveKey_between (hp : Optional pending) :
    ∃ pending', pending'.Sublist pending ∧
      saveKey (between rest m b depth pending keyAllowed tokens) =
        .ok ((), between rest m b depth
          (if keyAllowed then ⟨depth, false, tokens.length, m⟩ :: pending'
            else pending') keyAllowed tokens) := by
  cases keyAllowed with
  | false => exact ⟨pending, List.Sublist.refl _, rfl⟩
  | true =>
      obtain ⟨pending', hs, hd⟩ := dropKey_between rest m b depth true tokens hp
      have hcol : ((-1 : Int) == (m.column : Int)) = false := beq_false_of_ne (by omega)
      refine ⟨pending', hs, ?_⟩
      have hk : (between rest m b depth pending true tokens).keyAllowed = true := rfl
      unfold saveKey
      rw [get_bind, if_pos hk, bind_ok hd]
      simp [between, Lexer.indent, Lexer.mark, hcol]

theorem expireKeys_between (hp : Optional pending) :
    expireKeys (between rest m b depth pending keyAllowed tokens) =
      .ok ((), between rest m b depth (pending.filter (!·.isStale m)) keyAllowed tokens) :=
  expireKeys_optional (l := between rest m b depth pending keyAllowed tokens) hp

end Keys

/-! ## Gaps -/

/-- The characters that tokens of the output begin with, and words. -/
def startsToken (c : Char) : Bool :=
  Json.startsValue c || c == ']' || c == '}' || c == ',' || c == ':' || c == '+'

theorem startsToken_ne {c d : Char} (h : startsToken c = true) (hd : startsToken d = false) :
    (c == d) = false :=
  beq_false_of_ne (by rintro rfl; rw [h] at hd; cases hd)

theorem startsToken_not_gap {c : Char} (h : startsToken c = true) : isGap c = false := by
  simp [isGap, isBlank, isBreak, startsToken_ne h (d := ' ') rfl, startsToken_ne h (d := '\t') rfl,
    startsToken_ne h (d := '\n') rfl, startsToken_ne h (d := '\r') rfl,
    startsToken_ne h (d := nextLine) rfl,
    startsToken_ne h (d := lineSeparator) rfl, startsToken_ne h (d := paragraphSeparator) rfl]

/-- What the output has between two tokens. -/
def IsGapText (gap : List Char) : Prop := ∀ c ∈ gap, c = ' ' ∨ c = '\n'

theorem isGapText_nil : IsGapText [] := fun _ h => absurd h List.not_mem_nil

/-- The end of the text, or a character that a token begins with. -/
def AtToken (rest : List Char) : Prop := rest.head?.all startsToken = true

theorem head?_gap {gap : List Char} (hg : IsGapText gap) (hr : AtToken rest) :
    ∀ c ∈ (gap ++ rest).head?, c = ' ' ∨ c = '\n' ∨ startsToken c = true := by
  intro c hc
  cases gap with
  | nil =>
      rw [List.nil_append] at hc
      rw [AtToken, hc] at hr
      exact Or.inr (Or.inr (by simpa using hr))
  | cons x gap =>
      cases hc
      exact (hg c (by simp)).imp_right Or.inl

theorem head?_line {gap : List Char} (hg : IsGapText gap) (hr : AtToken rest)
    (hs : gap.head?.all (!· == ' ') = true) :
    ∀ c ∈ (gap ++ rest).head?, c = '\n' ∨ startsToken c = true := by
  intro c hc
  rcases head?_gap hg hr c hc with rfl | h
  · cases gap with
    | nil =>
        rw [List.nil_append] at hc
        rw [AtToken, hc] at hr
        cases hr
    | cons x gap => cases hc; cases hs
  · exact h

theorem atBreak_of_startsToken {next : Option Char} (h : next.all startsToken = true) :
    atBreak next = false := by
  cases next with
  | none => rfl
  | some c =>
      have hg := startsToken_not_gap (by simpa using h)
      rw [isGap, Bool.or_eq_false_iff] at hg
      exact hg.2

section Gaps

variable (m b depth pending keyAllowed tokens)

theorem skipBlanks_between {spaces : List Char} (hs : ∀ c ∈ spaces, c = ' ')
    (hr : rest.head?.all (!isBlank ·) = true) :
    skipBlanks (between (spaces ++ rest) m b depth pending keyAllowed tokens) =
      .ok ((), between rest (m.past spaces) b depth pending keyAllowed tokens) := by
  unfold skipBlanks
  rw [get_bind]
  have hp : ∀ tabs : Bool, (∀ c ∈ spaces, (c == ' ' || (tabs && c == '\t')) = true) ∧
      (rest.takeWhile fun c => c == ' ' || (tabs && c == '\t')) = [] ∧
      (rest.dropWhile fun c => c == ' ' || (tabs && c == '\t')) = rest := by
    intro tabs
    refine ⟨fun c hc => by simp [hs c hc], ?_⟩
    cases rest with
    | nil => exact ⟨rfl, rfl⟩
    | cons c rest =>
        have hc : isBlank c = false := by simpa using hr
        rw [isBlank, Bool.or_eq_false_iff] at hc
        simp [hc]
  have hm : spaces.foldl Mark.next m = m.past spaces :=
    Mark.past_of_not m fun c hc => by rw [hs c hc]; rfl
  refine scan_between _ _ _ _ ?_
  simp only [bind_apply, Scan.need_free, Scan.skipWhile_free]
  rw [List.takeWhile_append_of_pos (hp _).1, List.dropWhile_append_of_pos (hp _).1, (hp _).2.1,
    (hp _).2.2, List.append_nil, hm]

/-- The spaces of a line are skipped, and no comment is behind them. -/
theorem skipGap_spaces {spaces : List Char} (hs : ∀ c ∈ spaces, c = ' ')
    (hn : ∀ c ∈ rest.head?, c = '\n' ∨ startsToken c = true) (fuel : Nat) :
    skipGap (fuel + 1) (between (spaces ++ rest) m b depth pending keyAllowed tokens) =
      (if atBreak rest.head? then do
          scan (do Scan.need 2; Scan.skipBreak)
          if !(← inFlow) then allowKey true
          skipGap fuel
        else pure ()) (between rest (m.past spaces) b depth pending keyAllowed tokens) := by
  have hbom : (spaces ++ rest).head? ≠ some byteOrderMark := fun h => by
    cases spaces with
    | nil => rcases hn _ h with h | h <;> revert h <;> decide
    | cons x spaces =>
        cases h
        exact absurd (hs _ List.mem_cons_self) (by decide)
  have hmark : ∀ all : List Char, all.head? ≠ some byteOrderMark →
      scan (do
        Scan.need 1
        let c ← get
        if c.mark.column = 0 && c.rest.head? = some byteOrderMark then Scan.skip)
          (between all m b depth pending keyAllowed tokens) =
            .ok ((), between all m b depth pending keyAllowed tokens) :=
    fun all h => scan_between _ _ _ _ (by simp [bind_apply, h])
  have hblank : rest.head?.all (!isBlank ·) = true := by
    cases hh : rest.head? with
    | none => rfl
    | some c =>
        rcases hn c hh with rfl | hc
        · rfl
        · simp [isBlank, startsToken_ne hc (d := ' ') rfl, startsToken_ne hc (d := '\t') rfl]
  have hcomment : rest.head? ≠ some '#' := fun h => by
    rcases hn _ h with h | h <;> revert h <;> decide
  have hpeek : scan (do
      if (← Scan.peek) = some '#' then Scan.skipWhile fun c => !isBreak c
      Scan.peek) (between rest (m.past spaces) b depth pending keyAllowed tokens) =
      .ok (rest.head?, between rest (m.past spaces) b depth pending keyAllowed tokens) :=
    scan_between _ _ _ _ (by rw [bind_ok Scan.peek_free, if_neg hcomment]; rfl)
  rw [skipGap, bind_ok (hmark _ hbom),
    bind_ok (skipBlanks_between m b depth pending keyAllowed tokens hs hblank), bind_ok hpeek]

/-- Outside brackets a key may begin on the next line. -/
theorem skipGap_newline (fuel : Nat) :
    (do scan (do Scan.need 2; Scan.skipBreak)
        if !(← inFlow) then allowKey true
        skipGap fuel) (between ('\n' :: rest) m b depth pending keyAllowed tokens) =
      skipGap fuel
        (between rest (m.after '\n') b depth pending (keyAllowed || depth == 0) tokens) := by
  have hbreak : scan (do Scan.need 2; Scan.skipBreak)
      (between ('\n' :: rest) m b depth pending keyAllowed tokens) =
      .ok ((), between rest (m.after '\n') b depth pending keyAllowed tokens) :=
    scan_between _ _ _ _ (by
      rw [bind_ok (Scan.need_free 2)]
      exact Scan.skipBreak_free (c := '\n') rfl (by decide))
  rw [bind_ok hbreak, bind_ok inFlow_between]
  cases depth with
  | zero => rw [Bool.or_comm]; rfl
  | succ depth => rw [Bool.or_comm]; rfl

theorem skipGap_between {gap : List Char} (hg : IsGapText gap) (hr : AtToken rest) (fuel : Nat)
    (hf : gap.length < fuel) : ∃ keyAllowed', (depth ≠ 0 → keyAllowed' = keyAllowed) ∧
      skipGap fuel (between (gap ++ rest) m b depth pending keyAllowed tokens) =
        .ok ((), between rest (m.past gap) b depth pending keyAllowed' tokens) := by
  induction fuel generalizing gap m keyAllowed with
  | zero => omega
  | succ fuel ih =>
      -- one round for each line: its spaces, and then its break or the token
      obtain ⟨spaces, gap, rfl, hs, hgap⟩ := exists_run (· == ' ') gap
      have hs' : ∀ c ∈ spaces, c = ' ' := fun c hc => by simpa using hs c hc
      have hg' : IsGapText gap := fun c hc => hg c (List.mem_append_right _ hc)
      have hround :=
        skipGap_spaces m b depth pending keyAllowed tokens hs' (head?_line hg' hr hgap) fuel
      rw [List.append_assoc, hround]
      cases gap with
      | nil =>
          have hb : atBreak ([] ++ rest).head? = false := atBreak_of_startsToken hr
          refine ⟨keyAllowed, fun _ => rfl, ?_⟩
          rw [hb, List.append_nil]
          rfl
      | cons c gap =>
          obtain rfl : c = '\n' :=
            (hg' c List.mem_cons_self).resolve_left fun hc => by simp [hc] at hgap
          have hb : atBreak ('\n' :: gap ++ rest).head? = true := rfl
          rw [if_pos hb, Mark.past_append, Mark.past_cons]
          obtain ⟨ka, hka, hs⟩ := ih ((m.past spaces).after '\n') (keyAllowed || depth == 0)
            (fun c hc => hg' c (List.mem_cons_of_mem _ hc)) (by simp at hf; omega)
          refine ⟨ka, fun hd => (hka hd).trans (by simp [hd]), ?_⟩
          exact (skipGap_newline (m.past spaces) b depth pending keyAllowed tokens fuel).trans hs

end Gaps

end Lex

/-! ## Places in a text -/

/-- A place in a text with what is left of it, and possible keys that began in front of it. -/
structure Placed (text rest : List Char) (m : Mark) (b : Nat) (pending : List PendingKey) :
    Prop where
  place : ∃ done, text = done ++ rest ∧ m.offset = bytes done
  bound : text.length < b
  optional : Optional pending
  lines : ∀ k ∈ pending, k.mark.line ≤ m.line

theorem Placed.past {text rest : List Char} {m : Mark} {b : Nat}
    {pending pending' : List PendingKey} (cs : List Char) (h : Placed text (cs ++ rest) m b pending)
    (hp : ∀ k ∈ pending', k ∈ pending ∨ k.required = false ∧ k.mark.line ≤ m.line) :
    Placed text rest (m.past cs) b pending' where
  place := by
    obtain ⟨done, ht, ho⟩ := h.place
    exact ⟨done ++ cs, by rw [ht, List.append_assoc], by rw [Mark.offset_past, ho, bytes_append]⟩
  bound := h.bound
  optional k hk := (hp k hk).elim (h.optional k) And.left
  lines k hk := Nat.le_trans ((hp k hk).elim (h.lines k) And.right) (Mark.line_past_le m cs)

theorem Placed.sub {text rest : List Char} {m : Mark} {b : Nat} {pending pending' : List PendingKey}
    (h : Placed text rest m b pending)
    (hp : ∀ k ∈ pending', k ∈ pending ∨ k.required = false ∧ k.mark.line ≤ m.line) :
    Placed text rest m b pending' :=
  h.past [] hp

/-- A lexer at a place in a text, at a depth of brackets. -/
def At (text rest : List Char) (depth : Nat) (l : Lexer) : Prop :=
  ∃ m b pending, Placed text rest m b pending ∧
    l = between rest m b depth pending l.keyAllowed l.tokens

/-- A lexer in front of a gap, or behind it with no possible key left. -/
inductive Stands (text gap rest : List Char) (depth : Nat) (l : Lexer) : Prop where
  | before (h : At text (gap ++ rest) depth l)
  | behind (h : At text rest depth l) (hp : l.pending = [])

/-! ## Steps -/

namespace Lex

/-- A step passes the gap, gives up keys, and takes the token behind the gap or ends the stream. -/
theorem step_between {gap rest : List Char} {pending : List PendingKey} (m : Mark) (b depth : Nat)
    (keyAllowed : Bool) (tokens : List Token) (hg : IsGapText gap) (hr : AtToken rest)
    (hp : Optional pending) (hb : gap.length < b) :
    ∃ keyAllowed', (depth ≠ 0 → keyAllowed' = keyAllowed) ∧
      Lex.step (between (gap ++ rest) m b depth pending keyAllowed tokens) =
        ((match rest with
          | [] => streamEnd
          | c :: more => tokenAt c more.head?) >>= fun _ => expireKeys)
          (between rest (m.past gap) b depth (pending.filter (!·.isStale (m.past gap))) keyAllowed'
              tokens) := by
  obtain ⟨ka, hka, hs⟩ := skipGap_between m b depth pending keyAllowed tokens hg hr b hb
  have he := expireKeys_between rest (m.past gap) b depth ka tokens hp
  have hneed :
      ∀ n rest m pending ka, scan (Scan.need n) (between rest m b depth pending ka tokens) =
      .ok ((), between rest m b depth pending ka tokens) := fun _ _ _ _ _ => rfl
  refine ⟨ka, hka, ?_⟩
  unfold Lex.step
  simp only [bind_apply, hneed, get_apply]
  rw [if_neg (by simp [between])]
  simp only [bind_apply, get_apply]
  rw [show (between (gap ++ rest) m b depth pending keyAllowed tokens).cursor.bound =
      b from rfl, hs]
  simp only [he, mark_between, closeBlocks_between, hneed]
  cases rest <;> simp only [between, bind_apply]

variable {text gap rest more : List Char} {c : Char} {depth : Nat} {l : Lexer}

/-- Behind a line break every key is out of reach. -/
theorem filter_stale {m : Mark} {pending : List PendingKey} (hn : '\n' ∈ gap)
    (hl : ∀ k ∈ pending, k.mark.line ≤ m.line) : pending.filter (!·.isStale (m.past gap)) = [] := by
  refine List.filter_eq_nil_iff.mpr fun k hk => ?_
  have hlt := Mark.line_past_lt m hn (by decide)
  have hle := hl k hk
  simp only [PendingKey.isStale, Bool.not_eq_true', Bool.or_eq_false_iff, decide_eq_false_iff_not]
  omega

/-- A lexer in front of a gap or behind it is at a place with a gap ahead, which may be empty. -/
theorem gap_ahead (h : Stands text gap rest depth l) (hg : IsGapText gap) :
    ∃ gap' m b pending, IsGapText gap' ∧ gap'.length < b ∧ Placed text (gap' ++ rest) m b pending ∧
      ('\n' ∈ gap → pending.filter (!·.isStale (m.past gap')) = []) ∧
      l = between (gap' ++ rest) m b depth pending l.keyAllowed l.tokens := by
  have hlen : ∀ {gap' m b pending}, Placed text (gap' ++ rest) m b pending → gap'.length < b :=
    fun hp => by
    obtain ⟨done, ht, _⟩ := hp.place
    have hb := hp.bound
    simp only [ht, List.length_append] at hb
    omega
  cases h with
  | before h =>
      obtain ⟨m, b, pending, hp, hl⟩ := h
      exact ⟨gap, m, b, pending, hg, hlen hp, hp, fun hn => filter_stale hn hp.lines, hl⟩
  | behind h hnone =>
      obtain ⟨m, b, pending, hp, hl⟩ := h
      obtain rfl : pending = [] := by rw [hl] at hnone; exact hnone
      exact ⟨[], m, b, [], isGapText_nil, hlen hp, hp, fun _ => rfl, hl⟩

/-- A step is the token behind the gap, but for keys that are given up. -/
theorem step_eq (h : Stands text gap (c :: more) depth l) (hg : IsGapText gap)
    (hc : startsToken c = true) :
    ∃ m b pending keyAllowed, Placed text (c :: more) m b pending ∧
      (depth ≠ 0 → keyAllowed = l.keyAllowed) ∧ ('\n' ∈ gap → pending = []) ∧
      Lex.step l = (tokenAt c more.head? >>= fun _ => expireKeys)
        (between (c :: more) m b depth pending keyAllowed l.tokens) := by
  obtain ⟨gap', m, b, pending, hg', hlen, hp, hnil, hl⟩ := gap_ahead h hg
  obtain ⟨ka, hka, hs⟩ := step_between m b depth l.keyAllowed l.tokens hg'
    (show AtToken (c :: more) by simpa [AtToken] using hc) hp.optional hlen
  exact ⟨m.past gap', b, _, ka, hp.past gap' fun k hk => Or.inl (List.mem_filter.mp hk).1, hka,
    hnil, by rw [hl]; exact hs⟩

/-- What a token leaves is where the next step begins, but for keys that are given up. -/
theorem step_ok {m m' : Mark} {b depth' : Nat} {pending pending' : List PendingKey}
    {keyAllowed keyAllowed' : Bool} {tokens : List Token}
    (hs : Lex.step l = (tokenAt c more.head? >>= fun _ => expireKeys)
      (between (c :: more) m b depth pending keyAllowed l.tokens))
    (ht : tokenAt c more.head? (between (c :: more) m b depth pending keyAllowed l.tokens) =
      .ok ((), between rest m' b depth' pending' keyAllowed' tokens))
    (hp : Placed text rest m' b pending') :
    Lex.step l =
        .ok ((), between rest m' b depth' (pending'.filter (!·.isStale m')) keyAllowed' tokens) ∧
      At text rest depth'
        (between rest m' b depth' (pending'.filter (!·.isStale m')) keyAllowed' tokens) := by
  refine ⟨?_, m', b, _, hp.sub fun k hk => Or.inl (List.mem_filter.mp hk).1, rfl⟩
  rw [hs, bind_ok ht, expireKeys_between _ _ _ _ _ _ hp.optional]

/-! ### Brackets and commas -/

section Indicators

variable {m : Mark} {b : Nat} {pending : List PendingKey} {keyAllowed : Bool} {tokens : List Token}

variable (rest more m b depth keyAllowed tokens)

/-- The keys after a token are keys from before it, or began with it. -/
def From (m : Mark) (pending pending' : List PendingKey) : Prop :=
  ∀ k ∈ pending', k ∈ pending ∨ k.required = false ∧ k.mark.line ≤ m.line

theorem saveKey_from (hp : Optional pending) :
    ∃ pending', From m pending pending' ∧
      saveKey (between rest m b depth pending keyAllowed tokens) =
        .ok ((), between rest m b depth pending' keyAllowed tokens) := by
  obtain ⟨pending', hs, h⟩ := saveKey_between rest m b depth keyAllowed tokens hp
  refine ⟨_, ?_, h⟩
  intro k hk
  split at hk
  · rcases List.mem_cons.mp hk with rfl | hk
    · exact Or.inr ⟨rfl, Nat.le_refl _⟩
    · exact Or.inl (hs.subset hk)
  · exact Or.inl (hs.subset hk)

theorem flowStart_between (hp : Optional pending) (kind : Token.Kind) (c : Char) :
    ∃ pending', From m pending pending' ∧
      flowStart kind (between (c :: more) m b depth pending keyAllowed tokens) =
        .ok ((), between more (m.next c) b (depth + 1) pending' true
          (⟨kind, m, m.next c⟩ :: tokens)) := by
  obtain ⟨pending', hf, h⟩ := saveKey_from (c :: more) depth m b keyAllowed tokens hp
  exact ⟨pending', hf, by unfold flowStart; rw [bind_ok h]; rfl⟩

theorem flowEnd_between (hp : Optional pending) (kind : Token.Kind) (c : Char) :
    ∃ pending', From m pending pending' ∧
      flowEnd kind (between (c :: more) m b (depth + 1) pending keyAllowed tokens) =
        .ok ((), between more (m.next c) b depth pending' false
          (⟨kind, m, m.next c⟩ :: tokens)) := by
  obtain ⟨pending', hs, h⟩ := dropKey_between (c :: more) m b (depth + 1) keyAllowed tokens hp
  exact ⟨pending', fun k hk => Or.inl (hs.subset hk), by unfold flowEnd; rw [bind_ok h]; rfl⟩

theorem flowEntry_between (hp : Optional pending) (c : Char) :
    ∃ pending', From m pending pending' ∧
      flowEntry (between (c :: more) m b depth pending keyAllowed tokens) =
        .ok ((), between more (m.next c) b depth pending' true
          (⟨.flowEntry, m, m.next c⟩ :: tokens)) := by
  obtain ⟨pending', hs, h⟩ := dropKey_between (c :: more) m b depth keyAllowed tokens hp
  exact ⟨pending', fun k hk => Or.inl (hs.subset hk), by unfold flowEntry; rw [bind_ok h]; rfl⟩

variable {more m b depth keyAllowed tokens}

/-- A character that is neither a dash nor a dot nor a percent sign begins no directive and no
document mark. -/
theorem tokenAt_between (hc : c ≠ '-' ∧ c ≠ '.' ∧ c ≠ '%') :
    (between (c :: more) m b depth pending keyAllowed tokens).cursor.atDocumentMark = false ∧
      (decide ((between (c :: more) m b depth pending keyAllowed tokens).mark.column = 0) &&
        decide (c = '%')) = false := by
  refine ⟨Cursor.not_atDocumentMark fun x more hr => ?_, by simp [hc.2.2]⟩
  cases hr
  exact ⟨hc.1, hc.2.1⟩

end Indicators

theorem step_open (h : Stands text gap (c :: more) depth l) (hg : IsGapText gap) {kind : Token.Kind}
    (hc : (c = '[' ∧ kind = .flowSequenceStart) ∨ (c = '{' ∧ kind = .flowMappingStart)) :
    ∃ l' t, Lex.step l = .ok ((), l') ∧ At text more (depth + 1) l' ∧ l'.keyAllowed = true ∧
      t.kind = kind ∧ l'.tokens = t :: l.tokens := by
  have hs : startsToken c = true := by rcases hc with ⟨rfl, _⟩ | ⟨rfl, _⟩ <;> rfl
  obtain ⟨m, b, pending, ka, hp, _, _, heq⟩ := step_eq h hg hs
  obtain ⟨pending', hf, ho⟩ := flowStart_between more depth m b ka l.tokens hp.optional kind c
  have ht : tokenAt c more.head? (between (c :: more) m b depth pending ka l.tokens) =
      .ok ((), between more (m.next c) b (depth + 1) pending' true
        (⟨kind, m, m.next c⟩ :: l.tokens)) := by
    rw [← ho]
    rcases hc with ⟨rfl, rfl⟩ | ⟨rfl, rfl⟩
    · simp [tokenAt, bind_apply, tokenAt_between]
    · simp [tokenAt, bind_apply, tokenAt_between]
  have hb : isBreak c = false := by rcases hc with ⟨rfl, _⟩ | ⟨rfl, _⟩ <;> rfl
  rw [← Mark.after_of_not hb m] at ht
  obtain ⟨hstep, hat⟩ := step_ok heq ht (hp.past [c] hf)
  exact ⟨_, _, hstep, hat, rfl, rfl, rfl⟩

theorem step_close (h : Stands text gap (c :: more) (depth + 1) l) (hg : IsGapText gap)
    {kind : Token.Kind}
    (hc : (c = ']' ∧ kind = .flowSequenceEnd) ∨ (c = '}' ∧ kind = .flowMappingEnd)) :
    ∃ l' t, Lex.step l = .ok ((), l') ∧ At text more depth l' ∧ t.kind = kind ∧
      l'.tokens = t :: l.tokens := by
  have hs : startsToken c = true := by rcases hc with ⟨rfl, _⟩ | ⟨rfl, _⟩ <;> rfl
  obtain ⟨m, b, pending, ka, hp, _, _, heq⟩ := step_eq h hg hs
  obtain ⟨pending', hf, ho⟩ := flowEnd_between more depth m b ka l.tokens hp.optional kind c
  have ht : tokenAt c more.head? (between (c :: more) m b (depth + 1) pending ka l.tokens) =
      .ok ((), between more (m.next c) b depth pending' false
        (⟨kind, m, m.next c⟩ :: l.tokens)) := by
    rw [← ho]
    rcases hc with ⟨rfl, rfl⟩ | ⟨rfl, rfl⟩
    · simp [tokenAt, bind_apply, tokenAt_between]
    · simp [tokenAt, bind_apply, tokenAt_between]
  have hb : isBreak c = false := by rcases hc with ⟨rfl, _⟩ | ⟨rfl, _⟩ <;> rfl
  rw [← Mark.after_of_not hb m] at ht
  obtain ⟨hstep, hat⟩ := step_ok heq ht (hp.past [c] hf)
  exact ⟨_, _, hstep, hat, rfl, rfl⟩

theorem step_comma (h : Stands text [] (',' :: more) depth l) :
    ∃ l' t, Lex.step l = .ok ((), l') ∧ At text more depth l' ∧ l'.keyAllowed = true ∧
      t.kind = .flowEntry ∧ l'.tokens = t :: l.tokens := by
  obtain ⟨m, b, pending, ka, hp, _, _, heq⟩ := step_eq h isGapText_nil rfl
  obtain ⟨pending', hf, ho⟩ := flowEntry_between more depth m b ka l.tokens hp.optional ','
  have ht : tokenAt ',' more.head? (between (',' :: more) m b depth pending ka l.tokens) =
      .ok ((), between more (m.after ',') b depth pending' true
        (⟨.flowEntry, m, m.after ','⟩ :: l.tokens)) := by
    rw [Mark.after_of_not rfl, ← ho]
    simp [tokenAt, bind_apply, tokenAt_between]
  obtain ⟨hstep, hat⟩ := step_ok heq ht (hp.past [','] hf)
  exact ⟨_, _, hstep, hat, rfl, rfl, rfl⟩

/-! ### Strings -/

/-- A token stands where a part of the text is. -/
def Covers (text : List Char) (t : Token) (part : List Char) : Prop :=
  ∃ done rest, text = done ++ (part ++ rest) ∧ t.start.offset = bytes done ∧
    t.stop.offset = bytes done + bytes part

theorem Covers.of_placed {m : Mark} {b : Nat} {pending : List PendingKey} {part rest : List Char}
    (h : Placed text (part ++ rest) m b pending) (kind : Token.Kind) :
      Covers text ⟨kind, m, m.past part⟩ part := by
  obtain ⟨done, ht, ho⟩ := h.place
  exact ⟨done, rest, ht, ho, by rw [Mark.offset_past, ho]⟩

theorem length_le_writeString (s : String) (tail : List Char) :
    s.toList.length < (Json.writeString s tail).length := by
  have h := Json.length_le_flatMap_escape s.toList
  simp only [Json.writeString, List.length_cons, List.length_append]
  omega

/-- A quote begins a scalar that may be a key. -/
theorem tokenAt_quote (s : String) {m : Mark} {b : Nat} {pending : List PendingKey} (depth : Nat)
    (keyAllowed : Bool) (tokens : List Token)
    (hp : Placed text (Json.writeString s more) m b pending) (next : Option Char) :
    ∃ pending', pending'.Sublist pending ∧ s.toList.length < b ∧
      tokenAt '"' next (between (Json.writeString s more) m b depth pending keyAllowed tokens) =
        (scan (Scan.quoted false) >>= emit) (between (Json.writeString s more) m b depth
          (if keyAllowed then ⟨depth, false, tokens.length, m⟩ :: pending'
            else pending') false tokens) := by
  obtain ⟨pending', hsub, hk⟩ :=
    saveKey_between (Json.writeString s more) m b depth keyAllowed tokens hp.optional
  have hb : s.toList.length < b := by
    obtain ⟨done, ht, _⟩ := hp.place
    have hb := hp.bound
    have hl := length_le_writeString s more
    simp only [ht, List.length_append] at hb
    omega
  refine ⟨pending', hsub, hb, ?_⟩
  have ht :
      tokenAt '"' next (between (Json.writeString s more) m b depth pending keyAllowed tokens) =
      keyToken (Scan.quoted false)
        (between (Json.writeString s more) m b depth pending keyAllowed tokens) := by
    simp only [Json.writeString]
    simp [tokenAt, bind_apply, tokenAt_between]
  rw [ht]
  unfold keyToken
  rw [bind_ok hk, bind_ok (allowKey_between false)]

theorem tokenAt_quoted {s : String} {cs : List Char} (hs : refold? s.toList = some cs)
    {m : Mark} {b : Nat}
    {pending : List PendingKey} (depth : Nat) (keyAllowed : Bool) (tokens : List Token)
    (hp : Placed text (Json.writeString s more) m b pending) (next : Option Char) :
    ∃ pending', pending'.Sublist pending ∧
      tokenAt '"' next (between (Json.writeString s more) m b depth pending keyAllowed tokens) =
        .ok ((), between more (m.past (Json.writeString s [])) b depth
          (if keyAllowed then ⟨depth, false, tokens.length, m⟩ :: pending' else pending') false
          (⟨.scalar .doubleQuoted (String.ofList cs), m, m.past (Json.writeString s [])⟩ ::
            tokens)) := by
  obtain ⟨pending', hsub, hb, ht⟩ := tokenAt_quote s depth keyAllowed tokens hp next
  have hq := Scan.quoted_written s more m hb
  rw [hs] at hq
  have hscan :=
    scan_between depth (if keyAllowed then ⟨depth, false, tokens.length, m⟩ :: pending'
        else pending') false tokens
    (eq_ok_of_toOption hq)
  exact ⟨pending', hsub, by rw [ht, bind_ok hscan]; rfl⟩

theorem tokenAt_unquoted {s : String} (hs : refold? s.toList = none) {m : Mark} {b : Nat}
    {pending : List PendingKey} (depth : Nat) (keyAllowed : Bool) (tokens : List Token)
    (hp : Placed text (Json.writeString s more) m b pending) (next : Option Char) :
    ∃ problem, tokenAt '"' next
    (between (Json.writeString s more) m b depth pending keyAllowed tokens) = .error problem := by
  obtain ⟨pending', _, hb, ht⟩ := tokenAt_quote s depth keyAllowed tokens hp next
  have hq := Scan.quoted_written s more m hb
  rw [hs] at hq
  cases hx : Scan.quoted false ⟨Json.writeString s more, m, none, b⟩ with
  | ok r => rw [hx] at hq; cases hq
  | error problem =>
      refine ⟨problem, ?_⟩
      rw [ht]
      apply bind_error
      unfold scan
      rw [show (between (Json.writeString s more) m b depth _ false tokens).cursor =
          ⟨Json.writeString s more, m, none, b⟩ from rfl, hx]

theorem writeString_eq_append (s : String) (tail : List Char) :
    Json.writeString s tail = Json.writeString s [] ++ tail := by
  simpa using Json.writeString_append s [] tail

theorem step_string (s : String) {cs : List Char} (hs : refold? s.toList = some cs)
    (h : Stands text gap (Json.writeString s more) depth l) (hg : IsGapText gap) :
    ∃ l' t, Lex.step l = .ok ((), l') ∧ At text more depth l' ∧ t.kind = .scalar .doubleQuoted
      (String.ofList cs) ∧ Covers text t (Json.writeString s []) ∧ l'.tokens = t :: l.tokens := by
  obtain ⟨m, b, pending, ka, hp, _, _, heq⟩ := step_eq h hg rfl
  obtain ⟨pending', hsub, ht⟩ := tokenAt_quoted hs depth ka l.tokens hp
    (s.toList.flatMap Json.escape ++ '"' :: more).head?
  have hfrom : From m pending (if ka then ⟨depth, false, l.tokens.length, m⟩ :: pending'
        else pending') := by
    intro k hk
    split at hk
    · rcases List.mem_cons.mp hk with rfl | hk
      · exact Or.inr ⟨rfl, Nat.le_refl _⟩
      · exact Or.inl (hsub.subset hk)
    · exact Or.inl (hsub.subset hk)
  have hp' : Placed text (Json.writeString s [] ++ more) m b pending := by
    rwa [← writeString_eq_append]
  obtain ⟨hstep, hat⟩ := step_ok heq ht (hp'.past _ hfrom)
  exact ⟨_, _, hstep, hat, rfl, .of_placed hp' _, rfl⟩

/-! ### Keys -/

/-- A text that is written on one line, within reach of the colon behind it. -/
def IsSimple (s : String) : Prop :=
  (∀ c ∈ Json.writeString s [], isBreak c = false) ∧
    bytes (Json.writeString s []) ≤ PendingKey.reach

theorem valueIndicator_between {m k : Mark} {b : Nat} {pending : List PendingKey}
    (keyAllowed : Bool) {t : Token} {tokens : List Token} (hd : depth ≠ 0) :
    valueIndicator (between (':' :: more) m b depth (⟨depth, false, tokens.length, k⟩ :: pending)
        keyAllowed (t :: tokens)) =
      .ok ((), between more (m.after ':') b depth pending false
        (⟨.value, m, m.after ':'⟩ :: t :: ⟨.key, k, k⟩ :: tokens)) := by
  rw [Mark.after_of_not rfl]
  simp [valueIndicator, bind_apply, between, Lexer.key?, Lexer.insertAt, openBlock, Lexer.inFlow,
    hd, indicator, emit, allowKey, Lex.mark, Lexer.mark, scan, Lexer.push]

/-- A colon behind a possible key that is not given up. -/
theorem step_colon {m k : Mark} {b : Nat} {pending : List PendingKey} (keyAllowed : Bool)
    (t : Token) {tokens : List Token}
    (hp : Placed text (':' :: ' ' :: more) m b pending) (hd : depth ≠ 0)
    (hk : (PendingKey.mk depth false tokens.length k).isStale m = false) :
    ∃ l' v,
      Lex.step (between (':' :: ' ' :: more) m b depth (⟨depth, false, tokens.length, k⟩ :: pending)
        keyAllowed (t :: tokens)) = .ok ((), l') ∧
      At text (' ' :: more) depth l' ∧ v.kind = .value ∧
      l'.tokens = v :: t :: ⟨.key, k, k⟩ :: tokens := by
  have hb : 0 < b := Nat.lt_of_le_of_lt (Nat.zero_le _) hp.bound
  have hopt : Optional (⟨depth, false, tokens.length, k⟩ :: pending) :=
    List.forall_mem_cons.mpr ⟨rfl, hp.optional⟩
  obtain ⟨ka, _, hs⟩ := step_between m b depth keyAllowed (t :: tokens) isGapText_nil
    (show AtToken (':' :: ' ' :: more) from rfl) hopt hb
  rw [Mark.past_nil, List.filter_cons_of_pos (by simp [hk])] at hs
  have hp' : Placed text (':' :: ' ' :: more) m b (pending.filter (!·.isStale m)) :=
    hp.sub fun k hk => Or.inl (List.mem_filter.mp hk).1
  have ht : tokenAt ':' (some ' ') (between (':' :: ' ' :: more) m b depth
      (⟨depth, false, tokens.length, k⟩ :: pending.filter (!·.isStale m)) ka (t :: tokens)) =
      .ok ((), between (' ' :: more) (m.after ':') b depth (pending.filter (!·.isStale m)) false
        (⟨.value, m, m.after ':'⟩ :: t :: ⟨.key, k, k⟩ :: tokens)) := by
    rw [← valueIndicator_between ka hd]
    have hg : atGapOrEnd (some ' ') = true := rfl
    simp [tokenAt, bind_apply, tokenAt_between, hg]
  obtain ⟨hstep, hat⟩ := step_ok hs ht (hp'.past [':'] fun k hk => Or.inl hk)
  exact ⟨_, _, hstep, hat, rfl, rfl⟩

theorem valueIndicator_without {m : Mark} {b : Nat} (keyAllowed : Bool) {tokens : List Token}
    (hd : depth ≠ 0) : valueIndicator (between (':' :: more) m b depth [] keyAllowed tokens) =
      .ok ((), between more (m.after ':') b depth [] false
        (⟨.value, m, m.after ':'⟩ :: tokens)) := by
  rw [Mark.after_of_not rfl]
  simp [valueIndicator, bind_apply, between, Lexer.key?, openBlockHere, Lexer.inFlow, hd, indicator,
    emit, allowKey, Lex.mark, Lexer.mark, scan, Lexer.push]

/-- A colon where no key is possible. -/
theorem step_colon_without {m : Mark} {b : Nat} (keyAllowed : Bool) (tokens : List Token)
    (hp : Placed text (':' :: ' ' :: more) m b []) (hd : depth ≠ 0) :
    ∃ l' v, Lex.step (between (':' :: ' ' :: more) m b depth [] keyAllowed tokens) = .ok ((), l') ∧
      At text (' ' :: more) depth l' ∧ v.kind = .value ∧ l'.tokens = v :: tokens := by
  have hb : 0 < b := Nat.lt_of_le_of_lt (Nat.zero_le _) hp.bound
  obtain ⟨ka, _, hs⟩ :=
    step_between m b depth keyAllowed tokens isGapText_nil
      (show AtToken (':' :: ' ' :: more) from rfl)
    hp.optional hb
  have ht : tokenAt ':' (some ' ') (between (':' :: ' ' :: more) m b depth [] ka tokens) =
      .ok ((), between (' ' :: more) (m.after ':') b depth [] false
        (⟨.value, m, m.after ':'⟩ :: tokens)) := by
    rw [← valueIndicator_without ka hd]
    have hg : atGapOrEnd (some ' ') = true := rfl
    simp [tokenAt, bind_apply, tokenAt_between, hg]
  obtain ⟨hstep, hat⟩ := step_ok hs ht (hp.past [':'] fun k hk => Or.inl hk)
  exact ⟨_, _, hstep, hat, rfl, rfl⟩

theorem step_key {s : String} {cs : List Char} (hs : refold? s.toList = some cs)
    (hsimple : IsSimple s) (h : Stands text gap (Json.writeString s (':' :: ' ' :: more)) depth l)
    (hg : IsGapText gap) (hd : depth ≠ 0)
    (hk : l.keyAllowed = true) :
    ∃ l₁ l₂ v t k, Lex.step l = .ok ((), l₁) ∧ At text (':' :: ' ' :: more) depth l₁ ∧
      Lex.step l₁ = .ok ((), l₂) ∧ At text (' ' :: more) depth l₂ ∧
      l₂.tokens = v :: t :: k :: l.tokens ∧ v.kind = .value ∧ k.kind = .key ∧
      t.kind = .scalar .doubleQuoted (String.ofList cs) ∧
      Covers text t (Json.writeString s []) := by
  obtain ⟨m, b, pending, ka, hp, hka, _, heq⟩ := step_eq h hg rfl
  obtain rfl : ka = true := by rw [hka hd, hk]
  obtain ⟨pending', hsub, ht⟩ := tokenAt_quoted hs depth true l.tokens hp
    (s.toList.flatMap Json.escape ++ '"' :: ':' :: ' ' :: more).head?
  rw [if_pos rfl] at ht
  have hp' : Placed text (Json.writeString s [] ++ ':' :: ' ' :: more) m b pending := by
    rwa [← writeString_eq_append]
  have hfrom : From m pending (⟨depth, false, l.tokens.length, m⟩ :: pending') := by
    intro k hk
    rcases List.mem_cons.mp hk with rfl | hk
    · exact Or.inr ⟨rfl, Nat.le_refl _⟩
    · exact Or.inl (hsub.subset hk)
  obtain ⟨hstep, hat⟩ := step_ok heq ht (hp'.past _ hfrom)
  -- The key is within reach behind the string, and once more in front of its colon.
  have hfresh :
      (PendingKey.mk depth false l.tokens.length m).isStale (m.past (Json.writeString s [])) =
      false := by
    have hl := Mark.line_past_of_not m hsimple.1
    have ho := Mark.offset_past m (Json.writeString s [])
    have hr := hsimple.2
    simp only [PendingKey.isStale, Bool.or_eq_false_iff, decide_eq_false_iff_not]
    omega
  rw [List.filter_cons_of_pos (by simp [hfresh])] at hstep hat
  have hp₁ : Placed text (':' :: ' ' :: more) (m.past (Json.writeString s [])) b
      (pending'.filter (!·.isStale (m.past (Json.writeString s [])))) :=
    hp'.past _ fun k hk => Or.inl (hsub.subset (List.mem_filter.mp hk).1)
  obtain ⟨l₂, v, hstep₂, hat₂, hv, htok⟩ := step_colon false
    ⟨.scalar .doubleQuoted (String.ofList cs), m, m.past (Json.writeString s [])⟩ hp₁ hd hfresh
  exact ⟨_, l₂, v, _, _, hstep, hat, hstep₂, hat₂, htok, hv, rfl, rfl, .of_placed hp' _⟩

/-- Behind a string that goes over a line or is too long, the key that it may be is out of reach. -/
theorem stale_of_not_simple {s : String} (h : ¬IsSimple s) {level : Nat} {required : Bool}
    {number : Nat} {m : Mark} :
    (PendingKey.mk level required number m).isStale (m.past (Json.writeString s [])) = true := by
  have ho := Mark.offset_past m (Json.writeString s [])
  simp only [PendingKey.isStale, Bool.or_eq_true, decide_eq_true_eq]
  by_cases hbreak : ∀ c ∈ Json.writeString s [], isBreak c = false
  · have hr : ¬bytes (Json.writeString s []) ≤ PendingKey.reach := fun hr => h ⟨hbreak, hr⟩
    omega
  · obtain ⟨c, hc, hb⟩ : ∃ c ∈ Json.writeString s [], isBreak c = true := by simpa using hbreak
    exact Or.inl (Mark.line_past_lt m hc hb)

/-- A string that is no key: its colon is out of reach. -/
theorem step_name {s : String} {cs : List Char} (hs : refold? s.toList = some cs)
    (hsimple : ¬IsSimple s) (h : Stands text gap (Json.writeString s (':' :: ' ' :: more)) depth l)
    (hg : IsGapText gap) (hn : '\n' ∈ gap)
    (hd : depth ≠ 0) :
    ∃ l₁ l₂ v t, Lex.step l = .ok ((), l₁) ∧ At text (':' :: ' ' :: more) depth l₁ ∧
      Lex.step l₁ = .ok ((), l₂) ∧ At text (' ' :: more) depth l₂ ∧ l₂.tokens = v :: t :: l.tokens ∧
      v.kind = .value ∧ t.kind = .scalar .doubleQuoted (String.ofList cs) ∧
      Covers text t (Json.writeString s []) := by
  obtain ⟨m, b, pending, ka, hp, _, hnil, heq⟩ := step_eq h hg rfl
  obtain rfl := hnil hn
  obtain ⟨pending', hsub, ht⟩ := tokenAt_quoted hs depth ka l.tokens hp
    (s.toList.flatMap Json.escape ++ '"' :: ':' :: ' ' :: more).head?
  obtain rfl := List.sublist_nil.mp hsub
  have hp' : Placed text (Json.writeString s [] ++ ':' :: ' ' :: more) m b [] := by
    rwa [← writeString_eq_append]
  have hfrom : From m [] (if ka then [⟨depth, false, l.tokens.length, m⟩] else []) := by
    intro k hk
    split at hk
    · rw [List.mem_singleton.mp hk]
      exact Or.inr ⟨rfl, Nat.le_refl _⟩
    · cases hk
  obtain ⟨hstep, hat⟩ := step_ok heq ht (hp'.past _ hfrom)
  have hstale : (if ka then [(⟨depth, false, l.tokens.length, m⟩ : PendingKey)] else []).filter
      (!·.isStale (m.past (Json.writeString s []))) = [] := by
    split
    · rw [List.filter_cons_of_neg (by simp [stale_of_not_simple hsimple]), List.filter_nil]
    · rfl
  rw [hstale] at hstep hat
  have hp₁ : Placed text (':' :: ' ' :: more) (m.past (Json.writeString s [])) b [] :=
    hp'.past _ fun _ h => absurd h List.not_mem_nil
  obtain ⟨l₂, v, hstep₂, hat₂, hv, htok⟩ := step_colon_without false
    (⟨.scalar .doubleQuoted (String.ofList cs), m, m.past (Json.writeString s [])⟩ ::
      l.tokens) hp₁ hd
  exact ⟨_, l₂, v, _, hstep, hat, hstep₂, hat₂, htok, hv, rfl, .of_placed hp' _⟩

/-! ### Words -/

open Scan (IsWord Ends startsWord)

theorem startsToken_of_startsWord (h : startsWord c = true) : startsToken c = true := by
  simp only [startsWord, Bool.or_eq_true] at h
  simp only [startsToken, Json.startsValue, Bool.or_eq_true]
  rcases h with (((h | h) | h) | h) | h <;> simp [h]

theorem startsPlain_of_startsWord (h : startsWord c = true) (inFlow : Bool) (next : Option Char) :
    startsPlain inFlow c next = true := by
  have hne : ∀ d, startsWord d = false → c ≠ d := fun d hd => by rintro rfl; rw [h] at hd; cases hd
  have hg := (Scan.isWordChar_not (Scan.isWordChar_of_startsWord h)).1
  have hi : isIndicator c = false := by
    have hall : ",[]\x7b\x7d#&*!|>'\"%@`".toList.all (!startsWord ·) = true := by decide
    simp only [isIndicator, List.contains_eq_mem, decide_eq_false_iff_not]
    exact fun hm => hne c (by simpa using List.all_eq_true.mp hall c hm) rfl
  simp [startsPlain, hne '-' rfl, hne '?' rfl, hne ':' rfl, hg, hi]

theorem startsToken_word {word rest : List Char} (hw : IsWord word)
    (hc : word ++ rest = c :: more) : startsToken c = true := by
  cases hw with
  | word hx _ =>
      cases hc
      exact startsToken_of_startsWord hx
  | signed _ _ =>
      cases hc
      rfl

/-- A word begins a plain scalar wherever a token can begin. -/
theorem tokenAt_word {word rest : List Char} (hw : IsWord word) (hc : word ++ rest = c :: more)
    (m : Mark) (b depth : Nat)
    (pending : List PendingKey) (keyAllowed : Bool) (tokens : List Token) :
    tokenAt c more.head? (between (c :: more) m b depth pending keyAllowed tokens) =
      plainScalar (between (c :: more) m b depth pending keyAllowed tokens) := by
  have hm := hw.noMark rest m b
  rw [hc] at hm
  have hm' : (between (c :: more) m b depth pending keyAllowed tokens).cursor.atDocumentMark =
      false := hm
  cases hw with
  | @word x cs hx _ =>
      rw [List.cons_append] at hc
      obtain ⟨rfl, rfl⟩ := List.cons.inj hc
      have hne : ∀ d, startsWord d = false → x ≠ d :=
        fun d hd => by rintro rfl; rw [hx] at hd; cases hd
      simp [tokenAt, bind_apply, hm', hne '%' rfl, hne '[' rfl, hne '{' rfl, hne ']' rfl,
        hne '}' rfl, hne ',' rfl, hne '-' rfl, hne '?' rfl, hne ':' rfl, hne '*' rfl, hne '&' rfl,
        hne '!' rfl, hne '|' rfl, hne '>' rfl, hne '\'' rfl, hne '"' rfl,
        startsPlain_of_startsWord hx]
  | @signed x cs hx _ =>
      rw [List.cons_append, List.cons_append] at hc
      obtain ⟨rfl, rfl⟩ := List.cons.inj hc
      have hg : atGapOrEnd (some x) = false :=
        (Scan.isWordChar_not (Scan.isWordChar_of_startsWord (by simp [startsWord, hx]))).1
      have hb : atBlank (some x) = false := by
        rw [atGapOrEnd, Option.all_some, isGap, Bool.or_eq_false_iff] at hg
        exact hg.1
      simp [tokenAt, bind_apply, hm', hg, startsPlain, hb]

theorem isFiller_of_gapText {gap : List Char} (h : IsGapText gap) :
    ∀ c ∈ gap, Scan.isFiller c = true := fun c hc => by
  rcases h c hc with rfl | rfl <;> rfl

theorem plainScalar_between {word gap rest : List Char} (hw : IsWord word) (hg : IsGapText gap)
    (hr : Ends (depth != 0) rest) {m : Mark} {b : Nat} {pending : List PendingKey}
    (hp : Placed text (word ++ (gap ++ rest)) m b pending) (keyAllowed : Bool)
    (tokens : List Token) :
    ∃ pending' keyAllowed', From m pending pending' ∧
      plainScalar (between (word ++ (gap ++ rest)) m b depth pending keyAllowed tokens) =
        .ok ((), between rest ((m.past word).past gap) b depth pending' keyAllowed'
          (⟨.scalar .plain (String.ofList word), m, m.past word⟩ :: tokens)) := by
  obtain ⟨pending', hf, hs⟩ :=
    saveKey_from (word ++ (gap ++ rest)) depth m b keyAllowed tokens hp.optional
  have hb : (word ++ gap).length < b := by
    obtain ⟨done, ht, _⟩ := hp.place
    have hb := hp.bound
    simp only [ht, List.length_append] at hb ⊢
    omega
  have hscan :=
    scan_between depth pending' false tokens
      (Scan.plain_word hw (isFiller_of_gapText hg) hr hb (m := m))
  have hrun : plainScalar (between (word ++ (gap ++ rest)) m b depth pending keyAllowed tokens) =
      (scan (Scan.plain (depth != 0) 0) >>= fun found =>
        emit found.1 >>= fun _ => if found.2 then allowKey true else pure ())
        (between (word ++ (gap ++ rest)) m b depth pending' false tokens) := by
    unfold plainScalar
    rw [bind_ok hs, bind_ok (allowKey_between false), get_bind]
    rfl
  cases hbroken : (gap.foldl Gap.add .empty).broken with
  | true => exact ⟨pending', true, hf, by rw [hrun, bind_ok hscan, hbroken]; rfl⟩
  | false => exact ⟨pending', false, hf, by rw [hrun, bind_ok hscan, hbroken]; rfl⟩

theorem step_word {word gap' rest : List Char} (hw : IsWord word)
    (h : Stands text gap (word ++ (gap' ++ rest)) depth l) (hg : IsGapText gap)
    (hg' : IsGapText gap')
    (hl : gap' = [] ∨ '\n' ∈ gap') (hr : Ends (depth != 0) rest) :
    ∃ l' t, Lex.step l = .ok ((), l') ∧ Stands text gap' rest depth l' ∧
      t.kind = .scalar .plain (String.ofList word) ∧ l'.tokens = t :: l.tokens := by
  obtain ⟨c, more, hc⟩ : ∃ c more, word ++ (gap' ++ rest) = c :: more :=
    List.exists_cons_of_ne_nil (by simp [hw.ne_nil])
  rw [hc] at h
  obtain ⟨m, b, pending, ka, hp, _, _, heq⟩ := step_eq h hg (startsToken_word hw hc)
  rw [← hc] at hp
  obtain ⟨pending', ka', hf, hs⟩ := plainScalar_between hw hg' hr hp ka l.tokens
  have ht := tokenAt_word hw hc m b depth pending ka l.tokens
  rw [hc] at hs
  rw [hs] at ht
  have hp' : Placed text rest ((m.past word).past gap') b pending' := by
    rw [← List.append_assoc] at hp
    rw [← Mark.past_append]
    exact hp.past _ hf
  obtain ⟨hstep, hat⟩ := step_ok heq ht hp'
  refine ⟨_, _, hstep, ?_, rfl, rfl⟩
  rcases hl with rfl | hn
  · exact .before hat
  · exact .behind hat (filter_stale hn fun k hk =>
      Nat.le_trans ((hf k hk).elim (hp.lines k) And.right) (Mark.line_past_le m word))

end Lex

end BootConfig.Yaml
