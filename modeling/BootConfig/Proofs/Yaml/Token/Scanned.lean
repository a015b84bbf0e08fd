import BootConfig.Proofs.Along
import BootConfig.Proofs.Yaml.Cursor
import BootConfig.Yaml.Token.Stream

/-!
# What scanning takes

A cursor only ever moves forward, and the scanner of each token moves it over one character at
least.
-/

namespace BootConfig.Yaml

open Steps

/-! ## Cursors -/

/-- A cursor of the same text, behind some more characters. -/
structure Cursor.Before (c c' : Cursor) : Prop where
  passed : ∃ taken, c.rest = taken ++ c'.rest ∧ c'.mark.offset = c.mark.offset + bytes taken
  place : c'.mark = c.mark ∧ c'.rest = c.rest ∨ c.mark.Precedes c'.mark
  forbidden : c'.forbidden = c.forbidden
  bound : c'.bound = c.bound

namespace Cursor.Before

theorem rest {c c' : Cursor} (h : c.Before c') : c'.rest.length ≤ c.rest.length := by
  obtain ⟨taken, heq, _⟩ := h.passed
  simp [heq]

theorem offset {c c' : Cursor} {taken : List Char} (h : c.Before c')
    (hr : c.rest = taken ++ c'.rest) : c'.mark.offset = c.mark.offset + bytes taken := by
  obtain ⟨taken', hr', ho⟩ := h.passed
  rw [ho, List.append_cancel_right (hr'.symm.trans hr)]

theorem refl (c : Cursor) : c.Before c := ⟨⟨[], rfl, rfl⟩, Or.inl ⟨rfl, rfl⟩, rfl, rfl⟩

theorem trans {c c' c'' : Cursor} (h : c.Before c') (h' : c'.Before c'') : c.Before c'' := by
  obtain ⟨taken, hr, ho⟩ := h.passed
  obtain ⟨taken', hr', ho'⟩ := h'.passed
  refine ⟨⟨taken ++ taken', by rw [hr, hr', List.append_assoc], ?_⟩, ?_,
    h'.forbidden.trans h.forbidden, h'.bound.trans h.bound⟩
  · rw [ho', ho, bytes_append, Nat.add_assoc]
  · rcases h.place with ⟨hm, hr⟩ | hm
    · rw [← hm, ← hr]
      exact h'.place
    · rcases h'.place with ⟨hm', _⟩ | hm'
      · rw [hm']
        exact Or.inr hm
      · exact Or.inr (hm.trans hm')

instance : Std.Refl Cursor.Before := ⟨refl⟩

instance : Trans Cursor.Before Cursor.Before Cursor.Before := ⟨trans⟩

end Cursor.Before

/-- A cursor of the same text, further behind unless it is at the end. -/
structure Cursor.Past (c c' : Cursor) : Prop extends Cursor.Before c c' where
  taken : c.rest ≠ [] → c'.rest.length < c.rest.length

theorem Cursor.Past.before {c c' c'' : Cursor} (h : c.Past c') (h' : c'.Before c'') : c.Past c'' :=
  ⟨Trans.trans h.toBefore h', fun hne => Nat.lt_of_le_of_lt h'.rest (h.taken hne)⟩

theorem Cursor.Past.precedes {c c' : Cursor} (h : c.Past c') (hne : c.rest ≠ []) :
    c.mark.Precedes c'.mark := by
  apply h.place.resolve_left
  intro ⟨_, hr⟩
  exact absurd (h.taken hne) (by rw [hr]; exact Nat.lt_irrefl _)

namespace Scan

/-- The cursor moves forward, if at all. -/
abbrev Keeps {α : Type} (s : Scan α) : Prop := Along Cursor.Before s

/-- The cursor moves forward. -/
abbrev Takes {α : Type} (s : Scan α) : Prop := Along Cursor.Past s

variable {α β : Type} {s : Scan α} {f : α → Scan β}

theorem Takes.bind (hs : Takes s) (hf : ∀ a, Keeps (f a)) : Takes (s >>= f) :=
  Along.bind_of (fun _ _ _ h h' => h.before h') hs hf

theorem Takes.keeps (hs : Takes s) : Keeps s := hs.imp fun _ _ h => h.toBefore

/-- The cursor stays where it is. -/
def Stays (s : Scan α) : Prop := ∀ c a c', s c = .ok (a, c') → c' = c

theorem Stays.keeps (hs : Stays s) : Keeps s := fun c a c' h => by
  rw [hs c a c' h]
  exact Std.Refl.refl c

theorem Stays.takes (hs : Stays s) (hf : ∀ a, Takes (f a)) : Takes (s >>= f) := fun c b c'' h => by
  obtain ⟨a, c', ha, hb⟩ := ok_of_bind h
  rw [hs c a c' ha] at hb
  exact hf a c b c'' hb

/-! ## Single steps -/

theorem stays_mark : Stays Scan.mark := fun _ _ _ h => by cases h; rfl

theorem stays_bound : Stays bound := fun _ _ _ h => by cases h; rfl

theorem stays_peek : Stays peek := fun _ _ _ h => by cases h; rfl

theorem stays_peekAt (k : Nat) : Stays (peekAt k) := fun _ _ _ h => by cases h; rfl

theorem stays_need (n : Nat) : Stays (need n) := fun c a c' h => by
  cases hf : c.forbidden with
  | none => simp only [need, get_bind, hf] at h; cases h; rfl
  | some offset =>
      simp only [need, get_bind, hf] at h
      split at h
      · cases h
      · cases h; rfl

theorem keeps_need (n : Nat) : Keeps (need n) := (stays_need n).keeps

theorem keeps_fail (cause : Cause) (activity : Activity) (began : Mark) :
    Keeps (fail cause activity began : Scan α) :=
  .bind stays_mark.keeps fun _ => .throw _

theorem past_advance (c : Cursor) : Cursor.Past c c.advance := by
  unfold Cursor.advance
  split
  · rename_i h
    exact ⟨Std.Refl.refl c, fun hne => absurd h hne⟩
  · rename_i x xs h
    exact ⟨⟨⟨[x], h, rfl⟩, Or.inr (Mark.precedes_next _ _), rfl, rfl⟩, fun _ => by simp [h]⟩

theorem past_repeat (n : Nat) (c : Cursor) : Cursor.Past c ((n + 1).repeat Cursor.advance c) := by
  induction n with
  | zero => exact past_advance c
  | succ n ih =>
      have h := past_advance ((n + 1).repeat Cursor.advance c)
      exact ⟨Trans.trans ih.toBefore h.toBefore, fun hne =>
        Nat.lt_of_le_of_lt h.rest (ih.taken hne)⟩

theorem takes_skip : Takes skip := .modify past_advance

theorem takes_skipMany (n : Nat) : Takes (skipMany (n + 1)) := .modify (past_repeat n)

theorem keeps_skipMany : (n : Nat) → Keeps (skipMany n)
  | 0 => .modify fun c => Std.Refl.refl c
  | n + 1 => (takes_skipMany n).keeps

theorem fails_fail {cause : Cause} {activity : Activity} {began : Mark} {c : Cursor}
    {r : α × Cursor} : (fail cause activity began : Scan α) c ≠ .ok r := fun h => by
  obtain ⟨_, _, _, h⟩ := ok_of_bind h
  cases h

/-- A problem in one case only leaves what is done in the other. -/
theorem Takes.unless {p : Prop} [Decidable p] {cause : Cause} {activity : Activity} {began : Mark}
    {f : Unit → Scan β} (hf : Takes (f ())) :
    Takes (if p then fail cause activity began >>= f else f ()) :=
  .ite (fun _ _ _ _ h => by
    obtain ⟨_, _, h, _⟩ := ok_of_bind h
    exact absurd h fails_fail) fun _ => hf

theorem offset_foldl_next (m : Mark) (cs : List Char) :
    (cs.foldl Mark.next m).offset = m.offset + bytes cs := by
  induction cs generalizing m with
  | nil => rfl
  | cons c cs ih => rw [List.foldl_cons, ih, Mark.next, bytes, Nat.add_assoc]

theorem takeWhile_ok {p : Char → Bool} {c c' : Cursor} {run : List Char}
    (h : takeWhile p c = .ok (run, c')) :
    run = c.rest.takeWhile p ∧
    c' = { c with rest := c.rest.dropWhile p, mark := run.foldl Mark.next c.mark } := by
  unfold takeWhile at h
  rw [get_bind] at h
  simp only [set_bind] at h
  obtain ⟨_, c₁, hn, h⟩ := ok_of_bind h
  rw [stays_need 1 _ _ _ hn] at h
  cases h
  exact ⟨rfl, rfl⟩

theorem keeps_takeWhile (p : Char → Bool) : Keeps (takeWhile p) := fun c a c' h => by
  obtain ⟨rfl, rfl⟩ := takeWhile_ok h
  refine ⟨⟨c.rest.takeWhile p, List.takeWhile_append_dropWhile.symm, offset_foldl_next _ _⟩,
    ?_, rfl, rfl⟩
  have hsplit := List.takeWhile_append_dropWhile (p := p) (l := c.rest)
  cases hrun : c.rest.takeWhile p with
  | nil =>
      rw [hrun] at hsplit
      exact Or.inl ⟨rfl, hsplit⟩
  | cons x xs => exact Or.inr (Mark.precedes_foldl_next _ (List.cons_ne_nil x xs))

theorem keeps_skipWhile (p : Char → Bool) : Keeps (skipWhile p) :=
  .bind (keeps_takeWhile p) fun _ => .pure _

/-- A line break is one or two characters of the text and is read as one. -/
theorem passed_splitBreak? {cs rest : List Char} {y : Char} {size : Nat}
    (h : Cursor.splitBreak? cs = some (y, size, rest)) :
    isBreak y = true ∧ ∃ taken, cs = taken ++ rest ∧ taken ≠ [] ∧ (∀ x ∈ taken, isBreak x = true) ∧
      size = bytes taken := by
  unfold Cursor.splitBreak? at h
  split at h
  · cases h
    exact ⟨rfl, ['\r', '\n'], rfl, by simp, by simp [isBreak], rfl⟩
  · rename_i c cs _
    split at h
    · rename_i hc
      cases h
      have hy : isBreak y = true := by
        simp only [Bool.or_eq_true] at hc
        rcases hc with hc | hc <;> simp [isBreak, hc]
      exact ⟨hy, [y], rfl, by simp, by simpa using hy, rfl⟩
    · split at h
      · rename_i hc
        cases h
        exact ⟨rfl, [c], rfl, by simp, by simpa using hc, rfl⟩
      · cases h
  · cases h

theorem atBreak_of_splitBreak? {cs : List Char} (h : Cursor.splitBreak? cs = none) :
    atBreak cs.head? = false := by
  cases cs with
  | nil => rfl
  | cons x xs =>
      cases hx : isBreak x with
      | false => simpa [atBreak] using hx
      | true =>
          unfold Cursor.splitBreak? at h
          split at h
          · cases h
          · rename_i heq
            cases heq
            simp only [hx, if_true] at h
            split at h <;> cases h
          · rename_i heq
            cases heq

/-- No break is at the cursor, or the characters of one are taken. -/
theorem takeBreak_ok {c c' : Cursor} {found : List Char} (h : takeBreak c = .ok (found, c')) :
    c' = c ∧ atBreak c.rest.head? = false ∨
      ∃ y taken, found = [y] ∧ isBreak y = true ∧ c.rest = taken ++ c'.rest ∧ taken ≠ [] ∧
        (∀ x ∈ taken, isBreak x = true) ∧
        c' = { c with rest := c'.rest, mark := c.mark.nextLine (bytes taken) } := by
  unfold takeBreak at h
  rw [get_bind] at h
  cases hb : Cursor.splitBreak? c.rest with
  | none =>
      simp only [hb] at h
      cases h
      exact Or.inl ⟨rfl, atBreak_of_splitBreak? hb⟩
  | some r =>
      simp only [hb, set_bind] at h
      cases h
      obtain ⟨hy, taken, hr, hne, hall, hsize⟩ := passed_splitBreak? hb
      exact Or.inr ⟨_, taken, rfl, hy, hr, hne, hall, by simp only [hsize]⟩

theorem keeps_takeBreak : Keeps takeBreak := fun c found c' h => by
  rcases takeBreak_ok h with ⟨rfl, _⟩ | ⟨_, taken, _, _, hr, _, _, heq⟩
  · exact Std.Refl.refl c'
  · rw [heq]
    exact ⟨⟨taken, hr, rfl⟩, Or.inr (Mark.precedes_nextLine _ _), rfl, rfl⟩

theorem keeps_skipBreak : Keeps skipBreak := .bind keeps_takeBreak fun _ => .pure _

theorem keeps_skipLineEnd (activity : Activity) (began : Mark) :
    Keeps (skipLineEnd activity began) :=
  .bind (keeps_need 1) fun _ => .bind (keeps_skipWhile _) fun _ => .bind stays_peek.keeps fun _ =>
    .andThen (fun _ => keeps_skipWhile _) fun _ => .bind stays_peek.keeps fun _ =>
      .andThen (fun _ => keeps_fail _ _ _) fun _ => .bind stays_peek.keeps fun _ =>
        .ite (fun _ => .bind (keeps_need 2) fun _ => keeps_skipBreak) fun _ => .pure _

theorem keeps_extendGap (indent : Nat) (activity : Activity) (began : Mark) :
    (fuel : Nat) → (g : Gap) → Keeps (extendGap indent activity began fuel g)
  | 0, _ => .pure _
  | fuel + 1, _ =>
      .bind stays_peek.keeps fun
        | none => .pure _
        | some _ =>
            .ite
              (fun _ => .bind stays_mark.keeps fun _ =>
                .andThen (fun _ => keeps_fail _ _ _) fun _ =>
                .bind takes_skip.keeps fun _ => .bind (keeps_need 1) fun _ =>
                  keeps_extendGap indent activity began fuel _)
              fun _ => .ite
                (fun _ => .bind (keeps_need 2) fun _ => .bind keeps_takeBreak fun _ =>
                  .bind (keeps_need 1) fun _ =>
                  keeps_extendGap indent activity began fuel _)
                fun _ => .pure _

/-! ## Quoted scalars -/

theorem keeps_hexChar (digits : Nat) (began : Mark) : Keeps (hexChar digits began) :=
  .bind (keeps_need _) fun _ => .get fun _ => .andThen (fun _ => keeps_fail _ _ _) fun _ => by
    split
    · exact keeps_fail _ _ _
    · exact .andThen (fun _ => keeps_fail _ _ _) fun _ => .bind (keeps_skipMany _) fun _ => .pure _

theorem takes_escapedBy (letter : Option Char) (began : Mark) : Takes (escapedBy letter began) := by
  unfold escapedBy
  split
  · exact (takes_skipMany 1).bind fun _ => .pure _
  · exact (takes_skipMany 1).bind fun _ => keeps_hexChar _ _
  · exact fun _ _ _ h => absurd h fails_fail

theorem keeps_quotedRun (single : Bool) (began : Mark) : (fuel : Nat) → (acc : List Char) →
    Keeps (quotedRun single began fuel acc)
  | 0, _ => .pure _
  | fuel + 1, acc => .get fun c => by
      split
      · exact .pure _
      · refine .ite (fun _ => .pure _) fun _ => .ite (fun _ => ?_) fun _ =>
          .ite (fun _ => .pure _) fun _ => .ite (fun _ => ?_) fun _ => ?_
        · exact .bind (takes_skipMany 1).keeps fun _ => .bind (keeps_need 2) fun _ =>
            keeps_quotedRun single began fuel _
        · refine .ite (fun _ => ?_) fun _ => ?_
          · exact .bind (keeps_need 3) fun _ => .bind takes_skip.keeps fun _ =>
              .bind keeps_skipBreak fun _ => .pure _
          · exact .bind ((takes_escapedBy _ _).keeps) fun _ => .bind (keeps_need 2) fun _ =>
              keeps_quotedRun single began fuel _
        · exact .bind takes_skip.keeps fun _ => .bind (keeps_need 2) fun _ =>
            keeps_quotedRun single began fuel _

theorem keeps_quotedLines (single : Bool) (began : Mark) :
    (fuel : Nat) → (acc : List Char) → Keeps (quotedLines single began fuel acc)
  | 0, _ => .pure _
  | fuel + 1, _ =>
      .bind (keeps_need 4) fun _ => .get fun _ => .andThen (fun _ => keeps_fail _ _ _) fun _ =>
        .andThen (fun _ => keeps_fail _ _ _) fun _ => .bind (keeps_need 2) fun _ =>
          .bind (keeps_quotedRun _ _ _ _) fun _ =>
          .bind (keeps_need 1) fun _ => .bind stays_peek.keeps fun _ =>
            .ite (fun _ => .pure _) fun _ =>
            .bind (keeps_extendGap _ _ _ _ _) fun _ => keeps_quotedLines single began fuel _

theorem takes_quoted (single : Bool) : Takes (quoted single) :=
  stays_mark.takes fun _ => takes_skip.bind fun _ => .bind stays_bound.keeps fun _ =>
    .bind (keeps_quotedLines _ _ _ _) fun _ =>
    .bind takes_skip.keeps fun _ => .bind stays_mark.keeps fun _ => .pure _

/-! ## Names and tags -/

theorem takes_anchorName (activity : Activity) (began : Mark) : Takes (anchorName activity began) :=
  takes_skip.bind fun _ => .bind (keeps_need 1) fun _ => .bind (keeps_takeWhile _) fun _ =>
    .bind stays_peek.keeps fun _ =>
    .andThen (fun _ => keeps_fail _ _ _) fun _ => .pure _

theorem takes_anchor : Takes anchor :=
  stays_mark.takes fun _ => (takes_anchorName _ _).bind fun _ =>
    .bind stays_mark.keeps fun _ => .pure _

theorem takes_aliasOf : Takes aliasOf :=
  stays_mark.takes fun _ => (takes_anchorName _ _).bind fun _ =>
    .bind stays_mark.keeps fun _ => .pure _

theorem keeps_octet (place : TagPlace) (began : Mark) : Keeps (octet place began) :=
  .bind (keeps_need 3) fun _ => .get fun c => by
    split
    · split
      · exact .pure _
      · exact keeps_fail _ _ _
    · exact keeps_fail _ _ _

theorem keeps_trailingOctets (place : TagPlace) (began : Mark) : (n : Nat) →
    Keeps (trailingOctets place began n)
  | 0 => .pure _
  | n + 1 =>
      .bind (keeps_octet _ _) fun _ => .andThen (fun _ => keeps_fail _ _ _) fun _ =>
        .bind (takes_skipMany 2).keeps fun _ =>
        .bind (keeps_trailingOctets place began n) fun _ => .pure _

theorem keeps_escapedChar (place : TagPlace) (began : Mark) : Keeps (escapedChar place began) :=
  .bind (keeps_octet _ _) fun _ => .andThen (fun _ => keeps_fail _ _ _) fun _ =>
    .bind (takes_skipMany 2).keeps fun _ =>
    .bind (keeps_trailingOctets _ _ _) fun _ => .pure _

theorem keeps_uriChars (verbatim : Bool) (place : TagPlace) (began : Mark) : (fuel : Nat) →
    Keeps (uriChars verbatim place began fuel)
  | 0 => .pure _
  | fuel + 1 =>
      .bind (keeps_need 1) fun _ => .bind stays_peek.keeps fun
        | none => .pure _
        | some _ =>
            .ite (fun _ => .bind (keeps_escapedChar _ _) fun _ =>
              .bind (keeps_uriChars verbatim place began fuel) fun _ => .pure _) fun _ => .ite
                (fun _ => .bind takes_skip.keeps fun _ =>
                  .bind (keeps_uriChars verbatim place began fuel) fun _ => .pure _)
                fun _ => .pure _

theorem keeps_uri (verbatim : Bool) (place : TagPlace) (taken : List Char) (began : Mark) :
    Keeps (uri verbatim place taken began) :=
  .bind stays_bound.keeps fun _ => .bind (keeps_uriChars _ _ _ _) fun _ =>
    .andThen (fun _ => keeps_fail _ _ _) fun _ => .pure _

theorem takes_handle (place : TagPlace) (began : Mark) : Takes (handle place began) :=
  (stays_need 1).takes fun _ => stays_peek.takes fun _ =>
    .unless (takes_skip.bind fun _ => .bind (keeps_need 1) fun _ =>
    .bind (keeps_takeWhile _) fun _ => .bind stays_peek.keeps fun _ =>
      .ite (fun _ => .bind takes_skip.keeps fun _ => .pure _) fun _ =>
        .ite (fun _ => keeps_fail _ _ _) fun _ => .pure _)

theorem takes_tagParts (began : Mark) : Takes (tagParts began) :=
  (stays_need 2).takes fun _ => (stays_peekAt 1).takes fun _ => .ite
    (fun _ => (takes_skipMany 1).bind fun _ => .bind (keeps_uri _ _ _ _) fun _ =>
      .bind stays_peek.keeps fun _ =>
      .andThen (fun _ => keeps_fail _ _ _) fun _ => .bind takes_skip.keeps fun _ => .pure _)
    fun _ => (takes_handle _ _).bind fun _ => .ite
      (fun _ => .bind (keeps_uri _ _ _ _) fun _ => .pure _)
      fun _ => .bind (keeps_uri _ _ _ _) fun _ => .pure _

theorem takes_tag (inFlow : Bool) : Takes (tag inFlow) :=
  stays_mark.takes fun _ => (takes_tagParts _).bind fun _ => .bind (keeps_need 1) fun _ =>
    .bind stays_peek.keeps fun _ =>
    .andThen (fun _ => keeps_fail _ _ _) fun _ => .bind stays_mark.keeps fun _ => .pure _

/-! ## Directives -/

theorem keeps_versionDigits (began : Mark) : (room n : Nat) → Keeps (versionDigits began room n)
  | 0, _ => .bind stays_peek.keeps fun
      | none => .pure _
      | some _ => .ite (fun _ => keeps_fail _ _ _) fun _ => .pure _
  | room + 1, _ => .bind stays_peek.keeps fun
      | none => .pure _
      | some _ => .ite
          (fun _ => .bind takes_skip.keeps fun _ => .bind (keeps_need 1) fun _ =>
            keeps_versionDigits began room _)
          fun _ => .pure _

theorem keeps_versionNumber (began : Mark) : Keeps (versionNumber began) :=
  .bind (keeps_need 1) fun _ => .bind stays_peek.keeps fun _ =>
    .andThen (fun _ => keeps_fail _ _ _) fun _ =>
    keeps_versionDigits _ _ _

theorem keeps_version (began : Mark) : Keeps (version began) :=
  .bind (keeps_need 1) fun _ => .bind (keeps_skipWhile _) fun _ =>
    .bind (keeps_versionNumber _) fun _ =>
    .bind stays_peek.keeps fun _ => .andThen (fun _ => keeps_fail _ _ _) fun _ =>
      .bind takes_skip.keeps fun _ =>
      .bind (keeps_versionNumber _) fun _ => .pure _

theorem keeps_handleDefinition (began : Mark) : Keeps (handleDefinition began) :=
  .bind (keeps_need 1) fun _ => .bind (keeps_skipWhile _) fun _ =>
    .bind (takes_handle _ _).keeps fun _ =>
    .bind (keeps_need 1) fun _ => .bind stays_peek.keeps fun _ =>
      .andThen (fun _ => keeps_fail _ _ _) fun _ =>
      .bind (keeps_skipWhile _) fun _ => .bind (keeps_uri _ _ _ _) fun _ =>
        .bind (keeps_need 1) fun _ =>
        .bind stays_peek.keeps fun _ => .andThen (fun _ => keeps_fail _ _ _) fun _ => .pure _

theorem keeps_directiveName (began : Mark) : Keeps (directiveName began) :=
  .bind (keeps_need 1) fun _ => .bind (keeps_takeWhile _) fun _ =>
    .andThen (fun _ => keeps_fail _ _ _) fun _ =>
    .bind stays_peek.keeps fun _ => .andThen (fun _ => keeps_fail _ _ _) fun _ => .pure _

theorem takes_directive : Takes directive := by
  refine stays_mark.takes fun began => takes_skip.bind fun _ =>
    .bind (keeps_directiveName _) fun _ => ?_
  have hend : ∀ kind : Token.Kind, Keeps (do
      let stop ← mark
      skipLineEnd .directive began
      return (⟨kind, began, stop⟩ : Token)) :=
    fun _ => .bind stays_mark.keeps fun _ => .bind (keeps_skipLineEnd _ _) fun _ => .pure _
  exact .ite (fun _ => .bind (keeps_version _) hend) fun _ =>
    .ite (fun _ => .bind (keeps_handleDefinition _) hend) fun _ => .bind (keeps_fail _ _ _) hend

/-! ## Block scalars -/

theorem keeps_chomping? : Keeps chomping? := .bind stays_peek.keeps fun next => by
  split
  · exact .bind takes_skip.keeps fun _ => .pure _
  · exact .bind takes_skip.keeps fun _ => .pure _
  · exact .pure _

theorem keeps_indentation? (began : Mark) : Keeps (indentation? began) := .bind stays_peek.keeps fun
  | some _ => .ite (fun _ => keeps_fail _ _ _) fun _ =>
      .ite (fun _ => .bind takes_skip.keeps fun _ => .pure _) fun _ => .pure _
  | none => .pure _

theorem keeps_blockHeader (began : Mark) : Keeps (blockHeader began) :=
  .bind (keeps_need 1) fun _ => .bind keeps_chomping? fun
    | some _ => .bind (keeps_need 1) fun _ => .bind (keeps_indentation? _) fun _ => .pure _
    | none => .bind (keeps_indentation? _) fun
      | none => .pure _
      | some _ => .bind (keeps_need 1) fun _ => .bind keeps_chomping? fun _ => .pure _

theorem keeps_skipIndentation (indent : Option Nat) : (fuel : Nat) →
    Keeps (skipIndentation indent fuel)
  | 0 => .pure _
  | fuel + 1 => .bind (keeps_need 1) fun _ => .get fun _ =>
      .ite (fun _ => .bind takes_skip.keeps fun _ => keeps_skipIndentation indent fuel) fun _ =>
        .pure _

theorem keeps_emptyLines (indent : Option Nat) (began : Mark) :
    (fuel : Nat) → (breaks : List Char) → (widest : Nat) → (stop : Mark) →
    Keeps (emptyLines indent began fuel breaks widest stop)
  | 0, _, _, _ => .pure _
  | fuel + 1, _, _, _ =>
      .bind stays_bound.keeps fun _ => .bind (keeps_skipIndentation _ _) fun _ => .get fun _ =>
        .andThen (fun _ => keeps_fail _ _ _)
        fun _ => .ite (fun _ => .pure _) fun _ => .bind (keeps_need 2) fun _ =>
          .bind keeps_takeBreak fun _ =>
          .bind stays_mark.keeps fun _ => keeps_emptyLines indent began fuel _ _ _

theorem keeps_blockLines (folded : Bool) (indent : Nat) (began : Mark) :
    (fuel : Nat) → (afterBlank : Bool) → (b : Block) →
    Keeps (blockLines folded indent began fuel afterBlank b)
  | 0, _, _ => .pure _
  | fuel + 1, _, _ => .get fun _ =>
      .ite (fun _ => .pure _) fun _ => .bind (keeps_takeWhile _) fun _ => .bind (keeps_need 2)
      fun _ => .bind keeps_takeBreak fun _ => .bind stays_mark.keeps fun _ =>
        .bind (keeps_emptyLines _ _ _ _ _ _) fun _ =>
        keeps_blockLines folded indent began fuel _ _

theorem takes_block (folded : Bool) (parent : Int) : Takes (block folded parent) :=
  stays_mark.takes fun _ => takes_skip.bind fun _ => .bind (keeps_blockHeader _) fun _ =>
    .bind (keeps_skipLineEnd _ _) fun _ =>
    .bind stays_bound.keeps fun _ => .bind stays_mark.keeps fun _ =>
      .bind (keeps_emptyLines _ _ _ _ _ _) fun _ =>
      .bind (keeps_need 1) fun _ => .bind stays_bound.keeps fun _ =>
        .bind (keeps_blockLines _ _ _ _ _ _) fun _ => .pure _

/-! ## Plain scalars -/

theorem keeps_plainRun (inFlow : Bool) (began : Mark) : (fuel : Nat) → (acc : List Char) →
    Keeps (plainRun inFlow began fuel acc)
  | 0, _ => .pure _
  | fuel + 1, acc => .get fun c => by
      split
      · exact .pure _
      · refine .ite (fun _ => .pure _) fun _ => .ite (fun _ => keeps_fail _ _ _) fun _ =>
          .ite (fun _ => .pure _) fun _ => ?_
        exact .bind takes_skip.keeps fun _ => .bind (keeps_need 2) fun _ =>
          keeps_plainRun inFlow began fuel _

theorem keeps_plainLines (inFlow : Bool) (indent : Nat) (began : Mark) :
    (fuel : Nat) → (acc : List Char) → (stop : Mark) → (gap : Gap) →
    Keeps (plainLines inFlow indent began fuel acc stop gap)
  | 0, _, _, _ => .pure _
  | fuel + 1, _, _, _ => .bind (keeps_need 4) fun _ =>
      .get fun _ => .ite (fun _ => .pure _) fun _ =>
      .bind (keeps_plainRun _ _ _ _) fun _ => .bind stays_mark.keeps fun _ =>
        .bind stays_peek.keeps fun _ =>
        .ite (fun _ => .pure _) fun _ => .bind (keeps_need 1) fun _ =>
          .bind (keeps_extendGap _ _ _ _ _) fun _ =>
          .bind stays_mark.keeps fun _ => .ite (fun _ => .pure _) fun _ =>
            keeps_plainLines inFlow indent began fuel _ _ _

theorem isFlowIndicator_of_not {c : Char} (h : isIndicator c = false) :
    isFlowIndicator c = false := by
  cases hf : isFlowIndicator c with
  | false => rfl
  | true =>
      simp only [isFlowIndicator, Bool.or_eq_true, beq_iff_eq] at hf
      rcases hf with (((rfl | rfl) | rfl) | rfl) | rfl <;> cases h

/-- A character that begins a plain scalar is part of it. -/
theorem startsPlain_taken {inFlow : Bool} {c : Char} {next : Option Char}
    (h : Lex.startsPlain inFlow c next = true) :
    isGap c = false ∧ ((c = ':' && atGapOrEnd next) || (inFlow && isFlowIndicator c)) = false ∧
    c ≠ '#' := by
  unfold Lex.startsPlain at h
  split at h
  · rename_i hc
    subst hc
    exact ⟨rfl, by simp [isFlowIndicator], by decide⟩
  · split at h
    · rename_i hc
      simp only [Bool.and_eq_true, Bool.not_eq_true'] at h
      simp only [Bool.or_eq_true, decide_eq_true_eq] at hc
      rcases hc with rfl | rfl <;> exact ⟨rfl, by simp [h.1, h.2], by decide⟩
    · rename_i hc
      simp only [Bool.and_eq_true, Bool.not_eq_true'] at h
      simp only [Bool.or_eq_true, decide_eq_true_eq, not_or] at hc
      refine ⟨h.1, by simp [hc.2, isFlowIndicator_of_not h.2], ?_⟩
      rintro rfl
      exact absurd h.2 (by decide)

section Plain

variable {inFlow : Bool} {indent fuel : Nat} {began stop : Mark} {acc : List Char} {gap : Gap}
  {c c' : Cursor} {x : Char} {more : List Char}

/-- A run ends in front of what ends the scalar, or it takes a character and goes on. -/
theorem plainRun_step {run : List Char}
    (h : plainRun inFlow began (fuel + 1) acc c = .ok (run, c')) :
    (run = acc ∧ c' = c ∧ ∀ x more, c.rest = x :: more →
      isGap x = true ∨
        ((x = ':' && atGapOrEnd more.head?) || (inFlow && isFlowIndicator x)) = true) ∨
    ∃ x, c.rest = x :: c.advance.rest ∧
      plainRun inFlow began fuel (x :: acc) c.advance = .ok (run, c') := by
  unfold plainRun at h
  rw [get_bind] at h
  cases hr : c.rest with
  | nil =>
      simp only [hr] at h
      cases h
      exact Or.inl ⟨rfl, rfl, nofun⟩
  | cons x more =>
      have hadvance : c.advance.rest = more := by simp [Cursor.advance, hr]
      simp only [hr] at h
      split at h
      · rename_i hgap
        cases h
        exact Or.inl ⟨rfl, rfl, fun _ _ hc => by cases hc; exact Or.inl hgap⟩
      · split at h
        · exact absurd h fails_fail
        · split at h
          · rename_i hend
            cases h
            exact Or.inl ⟨rfl, rfl, fun _ _ hc => by cases hc; exact Or.inr hend⟩
          · obtain ⟨_, c₁, hskip, h⟩ := ok_of_bind h
            cases hskip
            obtain ⟨_, c₂, hneed, h⟩ := ok_of_bind h
            rw [stays_need 2 _ _ _ hneed] at h
            exact Or.inr ⟨x, by rw [hadvance], h⟩

/-- What a run leaves of the text, its end and the gap behind it. A run that takes nothing leaves
them as they are, any other one fills the gap in. -/
def withRun (run acc : List Char) (stop here : Mark) (gap : Gap) : List Char × Mark × Gap :=
  if run.isEmpty then (acc, stop, gap) else (run ++ (gap.text ++ acc), here, Gap.empty)

/-- A round of a plain scalar ends at a document mark or a comment, or it takes a run. Behind that
it ends where no gap is, or it takes the gap and ends or goes on. -/
theorem plainLines_step {r : List Char × Mark × Bool}
    (h : plainLines inFlow indent began (fuel + 1) acc stop gap c = .ok (r, c')) :
    ((c.atDocumentMark || c.rest.head? = some '#') = true ∧ r = (acc, stop, gap.broken) ∧ c' = c) ∨
    ∃ run c₁ acc₁ stop₁ gap₁, plainRun inFlow began c.bound [] c = .ok (run, c₁) ∧
      withRun run acc stop c₁.mark gap = (acc₁, stop₁, gap₁) ∧
      (atGap c₁.rest.head? = false ∧ r = (acc₁, stop₁, gap₁.broken) ∧ c' = c₁ ∨
        atGap c₁.rest.head? = true ∧
        ∃ gap₂ c₂, extendGap indent .plainScalar began c.bound gap₁ c₁ = .ok (gap₂, c₂) ∧
          (r = (acc₁, stop₁, gap₂.broken) ∧ c' = c₂ ∨
            plainLines inFlow indent began fuel acc₁ stop₁ gap₂ c₂ = .ok (r, c'))) := by
  obtain ⟨_, c₁, hneed, h⟩ := ok_of_bind h
  rw [stays_need 4 _ _ _ hneed, get_bind] at h
  split at h
  · rename_i hend
    cases h
    exact Or.inl ⟨hend, rfl, rfl⟩
  · obtain ⟨run, c₁, hrun, h⟩ := ok_of_bind h
    refine Or.inr ⟨run, c₁, _, _, _, hrun, rfl, ?_⟩
    obtain ⟨here, c₂, hmark, h⟩ := ok_of_bind h
    cases hmark
    obtain ⟨next, c₂, hpeek, h⟩ := ok_of_bind h
    cases hpeek
    split at h
    · rename_i hat
      cases h
      exact Or.inl ⟨by simpa using hat, rfl, rfl⟩
    · rename_i hat
      obtain ⟨_, c₂, hneed, h⟩ := ok_of_bind h
      rw [stays_need 1 _ _ _ hneed] at h
      obtain ⟨gap₂, c₃, hgap, h⟩ := ok_of_bind h
      refine Or.inr ⟨by simpa using hat, gap₂, c₃, hgap, ?_⟩
      obtain ⟨column, c₄, hmark, h⟩ := ok_of_bind h
      cases hmark
      split at h
      · cases h
        exact Or.inl ⟨rfl, rfl⟩
      · exact Or.inr h

/-- A run begins with the character that begins the scalar. -/
theorem past_plainRun {run : List Char} (hc : c.rest = x :: more)
    (hx : Lex.startsPlain inFlow x more.head? = true)
    (h : plainRun inFlow began (fuel + 1) acc c = .ok (run, c')) : Cursor.Past c c' := by
  obtain ⟨hgap, hend, _⟩ := startsPlain_taken hx
  rcases plainRun_step h with ⟨_, _, hstop⟩ | ⟨_, _, h⟩
  · rcases hstop x more hc with hg | he
    · rw [hgap] at hg
      cases hg
    · rw [hend] at he
      cases he
  · exact (past_advance c).before ((keeps_plainRun _ _ _ _).rel h)

theorem past_plainLines {r : List Char × Mark × Bool} (hc : c.rest = x :: more)
    (hx : Lex.startsPlain inFlow x more.head? = true) (hd : c.atDocumentMark = false)
    (hb : 0 < c.bound)
    (h : plainLines inFlow indent began (fuel + 1) acc stop gap c = .ok (r, c')) :
    Cursor.Past c c' := by
  obtain ⟨_, _, hhash⟩ := startsPlain_taken hx
  obtain ⟨bound, hbound⟩ := Nat.exists_eq_add_one.mpr hb
  rcases plainLines_step h with ⟨hend, _⟩ | ⟨run, c₁, acc₁, stop₁, gap₁, hrun, _, hnext⟩
  · simp [hc, hd, hhash] at hend
  · rw [hbound] at hrun
    refine (past_plainRun hc hx hrun).before ?_
    rcases hnext with ⟨_, _, rfl⟩ | ⟨_, gap₂, c₂, hgap, hlast⟩
    · exact Std.Refl.refl _
    · have hextend := (keeps_extendGap _ _ _ _ _).rel hgap
      rcases hlast with ⟨_, rfl⟩ | h
      · exact hextend
      · exact Trans.trans hextend ((keeps_plainLines _ _ _ _ _ _ _).rel h)

theorem past_plain {r : Token × Bool} (hc : c.rest = x :: more)
    (hx : Lex.startsPlain inFlow x more.head? = true) (hd : c.atDocumentMark = false)
    (hb : 0 < c.bound) (h : plain inFlow indent c = .ok (r, c')) : Cursor.Past c c' := by
  obtain ⟨_, c₁, hm, h⟩ := ok_of_bind h
  rw [stays_mark _ _ _ hm] at h
  obtain ⟨b, c₁, hbound, h⟩ := ok_of_bind h
  cases hbound
  obtain ⟨fuel, hf⟩ := Nat.exists_eq_add_one.mpr hb
  rw [hf] at h
  obtain ⟨_, c₂, hl, h⟩ := ok_of_bind h
  cases h
  exact past_plainLines hc hx hd hb hl

end Plain

/-! ## Kinds -/

/-- A scanned token is of some kind and begins where the scanner does. -/
def BeginsHere (p : Token.Kind → Prop) (s : Scan Token) : Prop :=
  ∀ c t c', s c = .ok (t, c') → t.start = c.mark ∧ p t.kind

theorem beginsHere {p : Token.Kind → Prop} {body : Mark → Scan Token}
    (h : ∀ began, Gives (fun t => t.start = began ∧ p t.kind) (body began)) :
      BeginsHere p (mark >>= body) := by
  intro c t c' hs
  obtain ⟨began, c₁, hm, hs⟩ := ok_of_bind hs
  cases hm
  exact h _ _ _ _ hs

theorem begins_quoted (single : Bool) :
    BeginsHere (fun k => ∃ s, k = .scalar (if single then .singleQuoted else .doubleQuoted) s)
    (quoted single) :=
  beginsHere fun _ => .last fun _ => .last fun _ => .last fun _ => .last fun _ => .last fun _ =>
    .pure ⟨rfl, _, rfl⟩

theorem begins_anchor : BeginsHere (fun k => ∃ name, k = .anchor name) anchor :=
  beginsHere fun _ => .last fun _ => .last fun _ => .pure ⟨rfl, _, rfl⟩

theorem begins_aliasOf : BeginsHere (fun k => ∃ name, k = .aliasOf name) aliasOf :=
  beginsHere fun _ => .last fun _ => .last fun _ => .pure ⟨rfl, _, rfl⟩

theorem begins_tag (inFlow : Bool) :
    BeginsHere (fun k => ∃ handle suffix, k = .tag handle suffix) (tag inFlow) :=
  beginsHere fun _ => .last fun _ => .last fun _ => .last fun _ => .andThen fun _ => .last fun _ =>
    .pure ⟨rfl, _, _, rfl⟩

theorem begins_block (folded : Bool) (parent : Int) :
    BeginsHere (fun k => ∃ s, k = .scalar (if folded then .folded else .literal) s)
    (block folded parent) :=
  beginsHere fun _ => .last fun _ => .last fun _ => .last fun _ => .last fun _ => .last fun _ =>
    .last fun _ => .last fun _ =>
    .last fun _ => .last fun _ => .pure ⟨rfl, _, rfl⟩

theorem begins_directive :
    BeginsHere
    (fun k => (∃ major minor, k = .version major minor) ∨
      ∃ name replacement, k = .handle name replacement) directive := by
  refine beginsHere fun began => .last fun _ => .last fun _ => ?_
  have hversion : Gives (fun k => ∃ major minor, k = .version major minor) (version began) :=
    .last fun _ => .last fun _ => .last fun _ => .last fun _ => .andThen fun _ => .last fun _ =>
      .last fun _ => .pure ⟨_, _, rfl⟩
  have hhandle :
      Gives (fun k => ∃ name replacement, k = .handle name replacement) (handleDefinition began) :=
    .last fun _ => .last fun _ => .last fun _ => .last fun _ => .last fun _ => .andThen fun _ =>
      .last fun _ => .last fun _ =>
      .last fun _ => .last fun _ => .andThen fun _ => .pure ⟨_, _, rfl⟩
  exact .ite (fun _ => .bind hversion fun _ h => .last fun _ => .last fun _ =>
    .pure ⟨rfl, Or.inl h⟩) fun _ =>
    .ite (fun _ => .bind hhandle fun _ h => .last fun _ => .last fun _ =>
      .pure ⟨rfl, Or.inr h⟩) fun _ =>
      .bind (p := fun _ => False) (fun _ _ _ h => absurd h fails_fail) fun _ h => h.elim

/-- The scanned token does not end the stream. -/
abbrev GoesOn (s : Scan Token) : Prop := Gives (fun t => t.kind ≠ .streamEnd) s

theorem BeginsHere.goesOn {p : Token.Kind → Prop} {s : Scan Token} (hs : BeginsHere p s)
    (hp : ∀ k, p k → k ≠ .streamEnd) : GoesOn s :=
  fun c t c' h => hp _ (hs c t c' h).2

theorem goesOn_quoted (single : Bool) : GoesOn (quoted single) :=
  (begins_quoted single).goesOn (by simp)

theorem goesOn_anchor : GoesOn anchor := begins_anchor.goesOn (by simp)

theorem goesOn_aliasOf : GoesOn aliasOf := begins_aliasOf.goesOn (by simp)

theorem goesOn_tag (inFlow : Bool) : GoesOn (tag inFlow) := (begins_tag inFlow).goesOn (by
  rintro _ ⟨_, _, rfl⟩
  simp)

theorem goesOn_block (folded : Bool) (parent : Int) : GoesOn (block folded parent) :=
  (begins_block folded parent).goesOn (by simp)

theorem goesOn_directive : GoesOn directive := begins_directive.goesOn (by
  rintro _ (⟨_, _, rfl⟩ | ⟨_, _, rfl⟩) <;> simp)

theorem goesOn_plain (inFlow : Bool) (indent : Nat) :
    Gives (fun r => r.1.kind ≠ .streamEnd) (plain inFlow indent) :=
  .last fun _ => .last fun _ => .last fun _ => .pure (by simp)

end Scan

end BootConfig.Yaml
