import BootConfig.Proofs.Yaml.Token.Written

/-!
# Strings that cannot be read

A string in whose text a line begins with a document mark is not read, and neither is a tree with
such a string.
-/

namespace BootConfig.Yaml

open Json Steps
open Yaml.Lex (IsGapText)

/-- A run of the lexer comes to a problem, in no more steps than there are characters and one. -/
def Fails (l : Lexer) : Prop :=
  ∃ n, n ≤ l.cursor.rest.length + 1 ∧ ∀ fuel, (Lexer.run (n + fuel) l).2 ≠ none

theorem Reads.fails {l l' : Lexer} {tokens : List Token} (h : Reads l l' tokens) (hf : Fails l') :
    Fails l := by
  obtain ⟨_, n, hn, hr⟩ := h
  obtain ⟨n', hn', hf⟩ := hf
  refine ⟨n + n', by omega, fun fuel => ?_⟩
  rw [Nat.add_assoc, hr]
  exact hf fuel

theorem Fails.of_step {l : Lexer} {problem : Problem} (hs : Lex.step l = .error problem)
    (he : l.ended = false) : Fails l := by
  refine ⟨1, by omega, fun fuel => ?_⟩
  rw [Nat.add_comm, Lexer.run, if_neg (by simp [he]), hs]
  simp

section Places

variable {text gap rest more : List Char} {depth : Nat} {l : Lexer}

theorem fails_string {s : String} (hs : refold? s.toList = none)
    (h : Stands text gap (writeString s more) depth l) (hg : IsGapText gap) : Fails l := by
  obtain ⟨m, b, pending, ka, hp, _, _, heq⟩ := Lex.step_eq h hg rfl
  obtain ⟨problem, ht⟩ :=
    Lex.tokenAt_unquoted hs depth ka l.tokens hp (s.toList.flatMap escape ++ '"' :: more).head?
  exact .of_step (by rw [heq]; exact bind_error ht) h.ended

end Places

section Trees

variable {text : List Char}

/-- Wherever the text of a tree stands, the lexer comes to a problem. -/
def Failing (text : List Char) (level : Nat) (t : Tree) : Prop :=
  ∀ ⦃gap rest : List Char⦄ ⦃depth : Nat⦄ ⦃l : Lexer⦄, IsGapText gap →
    Stands text gap (write level t rest) depth l → Fails l

/-- So it does behind an item. -/
def FailingItems (text : List Char) (level outer : Nat) (ts : List Tree) : Prop :=
  ∀ ⦃tail : List Char⦄ ⦃depth : Nat⦄ ⦃l : Lexer⦄,
    Stands text (gapBehind outer ts) (itemsBehind level outer tail ts) (depth + 1) l → Fails l

def FailingEntries (text : List Char) (level outer : Nat) (es : Entries) : Prop :=
  ∀ ⦃tail : List Char⦄ ⦃depth : Nat⦄ ⦃l : Lexer⦄,
    Stands text (gapBehind outer es) (entriesBehind level outer tail es) (depth + 1) l → Fails l

section Members

variable {level outer depth : Nat} {tail : List Char} {l : Lexer}

/-- Either the first item cannot be read, or one behind it. -/
theorem fails_item {t : Tree} {ts : List Tree} (hd : t.Standard)
    (ht : reread? t = none → Failing text level t)
    (hts : rereadItems? ts = none → FailingItems text level outer ts)
    (hn : rereadItems? (t :: ts) = none)
    (hat : At text
      (newline level (write level t (writeItems level ts (newline outer (']' :: tail)))))
      (depth + 1) l) : Fails l := by
  rw [newline_eq, writeItems_behind] at hat
  cases ht' : reread? t with
  | none => exact ht ht' (isGapText_newline _) (.before hat)
  | some t' =>
      obtain ⟨l₁, tokens, hr₁, hs₁, _⟩ :=
        lex_tree level t hd ht' (isGapText_newline _) (follows_items level outer ts tail _)
          (.before hat)
      exact hr₁.fails (hts (by simpa [rereadItems?, ht'] using hn) hs₁)

/-- The name of the first entry cannot be read, or its value, or an entry behind it. -/
theorem fails_entry {name : String} {v : Tree} {es : Entries} (hd : v.Standard)
    (hv : reread? v = none → Failing text level v)
    (hes : rereadEntries? es = none → FailingEntries text level outer es)
    (hn : rereadEntries? ((.str name, v) :: es) = none)
    (hat : At text
      (newline level (writeString name
        (':' :: ' ' :: write level v (writeEntries level es (newline outer ('}' :: tail))))))
      (depth + 1) l) (hk : l.keyAllowed = true) : Fails l := by
  rw [newline_eq, writeEntries_behind] at hat
  cases hcs : refold? name.toList with
  | none => exact fails_string hcs (.before hat) (isGapText_newline _)
  | some cs =>
      obtain ⟨l₁, keys, key, colon, hr₁, hat₁, _⟩ :=
        reads_name hcs (.before hat) (isGapText_newline _) (mem_newline _) (by omega) hk
      refine hr₁.fails ?_
      cases hv' : reread? v with
      | none => exact hv hv' isGapText_space (.before hat₁)
      | some v' =>
          obtain ⟨l₂, tokens, hr₂, hs₂, _⟩ := lex_tree level v hd hv' isGapText_space
            (follows_entries level outer es tail _) (.before hat₁)
          exact hr₂.fails
            (hes (by simpa [rereadEntries?, reread?, refoldText?, hcs, hv'] using hn) hs₂)

end Members

mutual

theorem fails_tree (level : Nat) : (t : Tree) → t.Standard → reread? t = none → Failing text level t
  | .null, _, ht | .bool _, _, ht | .int _, _, ht | .float _, _, ht => by cases ht
  | .str s, _, ht => by
      have hs : refold? s.toList = none := by simpa [reread?, refoldText?] using ht
      exact fun _ _ _ _ hg h => fails_string hs h hg
  | .seq [], _, ht => by cases ht
  | .seq (t :: ts), hd, ht => by
      intro _ _ _ _ hg h
      obtain ⟨l₁, start, hr₁, hat₁, _, _⟩ := reads_open h hg (Or.inl ⟨rfl, rfl⟩)
      exact hr₁.fails (fails_item hd.1 (fails_tree (level + 1) t hd.1)
        (fails_items (level + 1) level ts hd.2) (Option.map_eq_none_iff.mp ht) hat₁)
  | .map [], _, ht => by cases ht
  | .map ((k, v) :: es), hd, ht => by
      obtain ⟨⟨name, rfl⟩, hv, hes⟩ := hd
      intro _ _ _ _ hg h
      obtain ⟨l₁, start, hr₁, hat₁, hka, _⟩ := reads_open h hg (Or.inr ⟨rfl, rfl⟩)
      exact hr₁.fails (fails_entry hv (fails_tree (level + 1) v hv)
        (fails_entries (level + 1) level es hes) (Option.map_eq_none_iff.mp ht) hat₁ hka)

theorem fails_items (level outer : Nat) : (ts : List Tree) → Tree.StandardItems ts →
    rereadItems? ts = none → FailingItems text level outer ts
  | [], _, ht => by cases ht
  | t :: ts, hd, ht => by
      intro _ _ _ h
      obtain ⟨l₁, comma, hr₁, hat₁, _, _⟩ := reads_comma h
      exact hr₁.fails
        (fails_item hd.1 (fails_tree level t hd.1) (fails_items level outer ts hd.2) ht hat₁)

theorem fails_entries (level outer : Nat) : (es : Entries) → Tree.StandardEntries es →
    rereadEntries? es = none → FailingEntries text level outer es
  | [], _, ht => by cases ht
  | (k, v) :: es, hd, ht => by
      obtain ⟨⟨name, rfl⟩, hv, hes⟩ := hd
      intro _ _ _ h
      obtain ⟨l₁, comma, hr₁, hat₁, hka, _⟩ := reads_comma h
      exact hr₁.fails
        (fails_entry hv (fails_tree level v hv) (fails_entries level outer es hes) ht hat₁ hka)

end

end Trees

/-- The text of a standard tree with a string that cannot be read has a problem. -/
theorem problem_of_reread? {t : Tree} (hd : t.Standard) (ht : reread? t = none)
    (h : ∀ c ∈ write 0 t ['\n'], isAllowed c = true) :
    (Tokens.ofText (write 0 t ['\n'])).problem ≠ none := by
  obtain ⟨l₁, start, hs₁, hat₁, _, _⟩ := step_start h
  have hs : Stands (write 0 t ['\n']) [] (write 0 t (['\n'] ++ [])) 0 l₁ := hat₁.stands
  obtain ⟨n, hn, hf⟩ := fails_tree 0 t hd ht Lex.isGapText_nil hs
  have hrest := hat₁.rest_eq
  obtain ⟨fuel, hfuel⟩ : ∃ fuel, (write 0 t ['\n']).length + 1 = n + fuel :=
    ⟨(write 0 t ['\n']).length + 1 - n, by rw [← hrest]; omega⟩
  have hr : (Lexer.run ((write 0 t ['\n']).length + 2) (.ofText (write 0 t ['\n']))).2 ≠ none := by
    rw [Lexer.run, if_neg (by simp [Lexer.ofText]), hs₁]
    change (Lexer.run ((write 0 t ['\n']).length + 1) l₁).2 ≠ none
    rw [hfuel]
    exact hf fuel
  exact hr

end BootConfig.Yaml
