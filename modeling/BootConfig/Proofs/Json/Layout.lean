import BootConfig.Json.Layout
import BootConfig.Proofs.Json.ReadBack

/-!
# The output in lines

The text of a tree keeps to one rule at each of its characters, whatever is written around it, and a
text that does is laid out in lines.
-/

namespace BootConfig.Json

open Double (IsDigits Spelling)

/-! ## One character -/

/-- What stands behind a line break: the blanks of its level, and then something else. -/
def Indented (x : Context) (rest : List Char) : Prop :=
  ∃ content, rest = List.replicate (2 * levelOf x content) ' ' ++ content ∧
    ∃ c ∈ content.head?, c ≠ ' ' ∧ c ≠ '\n'

/-- What the layout asks of a character, by what is open in front of it and by what follows. -/
structure Rule (x : Context) (c : Char) (rest : List Char) : Prop where
  printable : c = '\n' ∨ 32 ≤ c.toNat
  trimmed : c = ' ' → rest.head? ≠ some '\n'
  lines : c = '\n' → x.quoting = .outside ∧ (rest = [] ∨ Indented x rest)
  opening : x.quoting = .outside → isOpening c = true → rest.head? = some (closer c) ∨
    BeginsLine rest
  closing : x.quoting = .outside → isClosing c = true → 0 < x.opened
  separated : x.quoting = .outside → c = ',' → BeginsLine rest

/-- A text that keeps to the rule at each of its characters. -/
def Obeys : Context → List Char → Prop
  | _, [] => True
  | x, c :: cs => Rule x c cs ∧ Obeys (x.step c) cs

theorem Obeys.at {x : Context} {before after : List Char} {c : Char}
    (h : Obeys x (before ++ c :: after)) : Rule (before.foldl Context.step x) c after := by
  induction before generalizing x with
  | nil => exact h.1
  | cons b before ih => exact ih h.2

variable {n : Nat} {c : Char} {rest tail : List Char}

/-- A character that is no line break, no comma and no bracket, or stands in a string. -/
theorem Rule.ordinary {x : Context} (hv : 32 ≤ c.toNat) (hb : c = ' ' → rest.head? ≠ some '\n')
    (ho : x.quoting = .outside → isOpening c = false ∧ isClosing c = false ∧ c ≠ ',') :
      Rule x c rest where
  printable := Or.inr hv
  trimmed := hb
  lines := by
    rintro rfl
    exact absurd hv (by decide)
  opening hx h := by
    rw [(ho hx).1] at h
    cases h
  closing hx h := by
    rw [(ho hx).2.1] at h
    cases h
  separated hx h := absurd h (ho hx).2.2

theorem ne_blank_of_lt (h : 32 < c.toNat) : c ≠ ' ' := by
  rintro rfl
  exact absurd h (by decide)

/-! ## Characters outside strings -/

/-- A character that neither opens nor closes nor separates anything. -/
def isQuiet (c : Char) : Bool :=
  decide (32 < c.toNat) && c != '"' && c != ',' && !isOpening c && !isClosing c

theorem obeys_quiet (cs : List Char) (h : ∀ c ∈ cs, isQuiet c = true)
    (ht : Obeys ⟨n, .outside⟩ tail) : Obeys ⟨n, .outside⟩ (cs ++ tail) := by
  induction cs with
  | nil => exact ht
  | cons c cs ih =>
      obtain ⟨hc, hcs⟩ := List.forall_mem_cons.mp h
      simp only [isQuiet, Bool.and_eq_true, decide_eq_true_eq, bne_iff_ne, Bool.not_eq_true'] at hc
      obtain ⟨⟨⟨⟨hvisible, hquote⟩, hcomma⟩, hopening⟩, hclosing⟩ := hc
      have hstep : Context.step ⟨n, .outside⟩ c = ⟨n, .outside⟩ := by
        simp [Context.step, hquote, hopening, hclosing]
      refine ⟨.ordinary (Nat.le_of_lt hvisible) (fun he =>
        absurd he (ne_blank_of_lt hvisible)) fun _ => ⟨hopening, hclosing, hcomma⟩, ?_⟩
      rw [hstep]
      exact ih hcs

theorem obeys_quote (h : Obeys ⟨n, .inside⟩ rest) : Obeys ⟨n, .outside⟩ ('"' :: rest) :=
  ⟨.ordinary (by decide) (by simp) fun _ => by decide, h⟩

theorem obeys_blank (hr : rest.head? ≠ some '\n') (h : Obeys ⟨n, .outside⟩ rest) :
    Obeys ⟨n, .outside⟩ (' ' :: rest) :=
  ⟨.ordinary (by decide) (fun _ => hr) fun _ => by decide, h⟩

theorem obeys_closing (hc : c = ']' ∨ c = '}') (h : Obeys ⟨n, .outside⟩ rest) :
    Obeys ⟨n + 1, .outside⟩ (c :: rest) := by
  rcases hc with rfl | rfl <;>
    exact ⟨⟨by decide, by simp, by simp, by simp [isOpening], fun _ _ => Nat.succ_pos n, by simp⟩,
      h⟩

theorem obeys_opening (ho : c = '[' ∨ c = '{') (hr : rest.head? = some (closer c) ∨ BeginsLine rest)
    (h : Obeys ⟨n + 1, .outside⟩ rest) : Obeys ⟨n, .outside⟩ (c :: rest) := by
  rcases ho with rfl | rfl <;>
    exact ⟨⟨by decide, by simp, by simp, fun _ _ => hr, by simp [isClosing], by simp⟩, h⟩

theorem obeys_comma (hr : BeginsLine rest) (h : Obeys ⟨n, .outside⟩ rest) :
    Obeys ⟨n, .outside⟩ (',' :: rest) :=
  ⟨⟨by decide, by simp, by simp, by simp [isOpening], by simp [isClosing], fun _ _ => hr⟩, h⟩

/-- A line break in front of what has its level. -/
theorem obeys_newline {level : Nat} (hl : level = levelOf ⟨n, .outside⟩ tail)
    (hc : ∃ c ∈ tail.head?, c ≠ ' ' ∧ c ≠ '\n')
    (ht : Obeys ⟨n, .outside⟩ tail) : Obeys ⟨n, .outside⟩ (newline level tail) := by
  refine ⟨⟨by decide, by simp, fun _ =>
    ⟨rfl, Or.inr ⟨tail, by rw [hl], hc⟩⟩, by simp [isOpening], by simp [isClosing], by simp⟩, ?_⟩
  change Obeys ⟨n, .outside⟩ (List.replicate (2 * level) ' ' ++ tail)
  obtain ⟨c, htail, _, hbreak⟩ := hc
  have hhead : (k : Nat) → (List.replicate k ' ' ++ tail).head? ≠ some '\n'
    | 0 => by rw [List.replicate_zero, List.nil_append, htail]; simpa using hbreak
    | k + 1 => by simp [List.replicate_succ]
  generalize 2 * level = k
  induction k with
  | zero => exact ht
  | succ k ih => exact obeys_blank (hhead k) ih

/-! ## Strings -/

theorem lowerHex_range {k : Nat} (h : k < 16) :
    32 < (Digits.lowerHex k).toNat ∧ Digits.lowerHex k ≠ '"' ∧ Digits.lowerHex k ≠ '\\' := by
  have hall : ∀ k < 16, 32 < (Digits.lowerHex k).toNat ∧ Digits.lowerHex k ≠ '"' ∧
      Digits.lowerHex k ≠ '\\' := by decide
  exact hall k h

/-- A character of a string that stands for itself, or a digit of an escape. -/
theorem obeys_inside (hc : 32 ≤ c.toNat) (hq : c ≠ '"') (hb : c ≠ '\\')
    (hr : c = ' ' → rest.head? ≠ some '\n')
    (h : Obeys ⟨n, .inside⟩ rest) : Obeys ⟨n, .inside⟩ (c :: rest) :=
  ⟨.ordinary hc hr (by rintro ⟨⟩), by simpa [Context.step, hq, hb] using h⟩

theorem obeys_escape (hc : 32 < c.toNat) (h : Obeys ⟨n, .inside⟩ rest) :
    Obeys ⟨n, .inside⟩ ('\\' :: c :: rest) :=
  ⟨.ordinary (by decide) (by simp) (by rintro ⟨⟩),
    .ordinary (Nat.le_of_lt hc) (fun he => absurd he (ne_blank_of_lt hc)) (by rintro ⟨⟩), h⟩

theorem obeys_hex {k : Nat} (hk : k < 16) (h : Obeys ⟨n, .inside⟩ rest) :
    Obeys ⟨n, .inside⟩ (Digits.lowerHex k :: rest) := by
  obtain ⟨hv, hq, hb⟩ := lowerHex_range hk
  exact obeys_inside (Nat.le_of_lt hv) hq hb (fun he => absurd he (ne_blank_of_lt hv)) h

theorem obeys_escaped {w : List Char} (hw : Escaped c w) (hr : rest.head? ≠ some '\n')
    (h : Obeys ⟨n, .inside⟩ rest) : Obeys ⟨n, .inside⟩ (w ++ rest) := by
  cases hw with
  | itself hc hq hb => exact obeys_inside hc hq hb (fun _ => hr) h
  | letter hm =>
      have hall : ∀ p ∈ escapeLetters, 32 < p.1.toNat := by decide
      exact obeys_escape (hall _ hm) h
  | number hc =>
      have hdigits :=
        obeys_hex (k := c.toNat / 16) (by omega) (obeys_hex (k := c.toNat % 16) (by omega) h)
      exact obeys_escape (by decide)
        (obeys_hex (k := 0) (by decide) (obeys_hex (k := 0) (by decide) hdigits))

theorem Escaped.head_ne {w : List Char} (h : Escaped c w) : (w ++ rest).head? ≠ some '\n' := by
  cases h with
  | itself hc _ _ =>
      intro he
      cases he
      exact absurd hc (by decide)
  | letter _ => simp
  | number _ => simp

theorem obeys_writeString (text : String) (ht : Obeys ⟨n, .outside⟩ tail) :
    Obeys ⟨n, .outside⟩ (writeString text tail) := by
  refine obeys_quote ?_
  have hhead : (cs : List Char) → (cs.flatMap escape ++ '"' :: tail).head? ≠ some '\n'
    | [] => by simp
    | c :: cs => by
        rw [List.flatMap_cons, List.append_assoc]
        exact (escaped c).head_ne
  induction text.toList with
  | nil => exact ⟨.ordinary (by decide) (by simp) (by rintro ⟨⟩), ht⟩
  | cons c cs ih =>
      rw [List.flatMap_cons, List.append_assoc]
      exact obeys_escaped (escaped c) (hhead cs) ih

/-! ## Numbers -/

theorem isQuiet_of_isDigit (h : c.isDigit = true) : isQuiet c = true := by
  have hv : 48 ≤ c.toNat := by
    simp only [Char.isDigit, Bool.and_eq_true, decide_eq_true_eq] at h
    exact h.1
  have hne : ∀ d : Char, d.isDigit = false → (c == d) = false := fun d hd => by
    rw [beq_eq_false_iff_ne]
    rintro rfl
    rw [hd] at h
    cases h
  simp [isQuiet, isOpening, isClosing, bne, hne _ (show '"'.isDigit = false from rfl),
    hne _ (show ','.isDigit = false from rfl), hne _ (show '['.isDigit = false from rfl),
    hne _ (show '{'.isDigit = false from rfl), hne _ (show ']'.isDigit = false from rfl),
    hne _ (show '}'.isDigit = false from rfl)]
  omega

theorem isQuiet_digits {ds : List Char} (h : IsDigits ds) : ∀ c ∈ ds, isQuiet c = true :=
  fun c hc => isQuiet_of_isDigit (h.digit c hc)

theorem isQuiet_spelling {cs : List Char} (h : Spelling cs) : ∀ c ∈ cs, isQuiet c = true := by
  have hsign : ∀ {sign : Char}, sign = '+' ∨ sign = '-' → isQuiet sign = true := by
    rintro _ (rfl | rfl) <;> decide
  have he : isQuiet 'e' = true := by decide
  have hp : isQuiet '.' = true := by decide
  cases h with
  | fraction hw hf =>
      simp only [List.forall_mem_append, List.forall_mem_cons]
      exact ⟨isQuiet_digits hw.toIsDigits, hp, isQuiet_digits hf⟩
  | exponent hw hs hx =>
      simp only [List.forall_mem_append, List.forall_mem_cons]
      exact ⟨isQuiet_digits hw.toIsDigits, he, hsign hs, isQuiet_digits hx⟩
  | both hw hf hs hx =>
      simp only [List.forall_mem_append, List.forall_mem_cons]
      exact ⟨isQuiet_digits hw.toIsDigits, hp, isQuiet_digits hf, he, hsign hs, isQuiet_digits hx⟩

theorem isQuiet_intText (k : Int) : ∀ c ∈ (intText k).toList, isQuiet c = true := by
  rw [toList_intText]
  split
  · exact List.forall_mem_cons.mpr ⟨by decide, isQuiet_digits (.of_toDigits _)⟩
  · exact isQuiet_digits (.of_toDigits _)

theorem isQuiet_text {x : Double} (hx : x.isFinite = true) :
    ∀ c ∈ x.text.toList, isQuiet c = true := by
  cases x with
  | nan => cases hx
  | infinite _ => cases hx
  | finite negative significand exponent =>
      have h := isQuiet_spelling (Double.spelling_unsignedText significand exponent)
      rw [Double.toList_text]
      split
      · exact List.forall_mem_cons.mpr ⟨by decide, h⟩
      · exact h

/-! ## Trees -/

/-- What begins a value or a member's name is no blank, no line break and no closing bracket. -/
theorem ne_of_startsValue (h : startsValue c = true) :
    c ≠ ' ' ∧ c ≠ '\n' ∧ isClosing c = false := by
  refine ⟨?_, ?_, ?_⟩
  · rintro rfl; cases h
  · rintro rfl; cases h
  · rw [← Bool.not_eq_true, isClosing, Bool.or_eq_true, beq_iff_eq, beq_iff_eq]
    rintro (rfl | rfl) <;> cases h

/-- A text that begins like a value. -/
def Starts (text : List Char) : Prop := ∃ c cs, text = c :: cs ∧ startsValue c = true

theorem starts_write (level : Nat) (t : Tree) (tail : List Char) : Starts (write level t tail) :=
  write_starts level t tail

theorem starts_writeString (text : String) (tail : List Char) : Starts (writeString text tail) :=
  ⟨_, _, rfl, rfl⟩

theorem Starts.beginsLine {level : Nat} (h : Starts tail) : BeginsLine (newline level tail) := by
  obtain ⟨c, cs, rfl, hc⟩ := h
  exact ⟨_, c, cs, rfl, ne_of_startsValue hc⟩

theorem Starts.levelOf {x : Context} (h : Starts tail) : levelOf x tail = x.opened := by
  obtain ⟨c, cs, rfl, hc⟩ := h
  simp [Json.levelOf, (ne_of_startsValue hc).2.2]

theorem Starts.head (h : Starts tail) : ∃ c ∈ tail.head?, c ≠ ' ' ∧ c ≠ '\n' := by
  obtain ⟨c, cs, rfl, hc⟩ := h
  exact ⟨c, rfl, (ne_of_startsValue hc).1, (ne_of_startsValue hc).2.1⟩

theorem obeys_line (h : Starts tail) (ht : Obeys ⟨n, .outside⟩ tail) :
    BeginsLine (newline n tail) ∧ Obeys ⟨n, .outside⟩ (newline n tail) :=
  ⟨h.beginsLine, obeys_newline (h.levelOf (x := ⟨n, .outside⟩)).symm h.head ht⟩

theorem obeys_end (hc : c = ']' ∨ c = '}') (ht : Obeys ⟨n, .outside⟩ tail) :
    Obeys ⟨n + 1, .outside⟩ (newline n (c :: tail)) := by
  have hclosing : isClosing c = true := by rcases hc with rfl | rfl <;> rfl
  have hne : c ≠ ' ' ∧ c ≠ '\n' := by rcases hc with rfl | rfl <;> decide
  exact obeys_newline (by simp [levelOf, hclosing]) ⟨c, rfl, hne⟩ (obeys_closing hc ht)

/-- What stands between a member's name and its value. -/
theorem obeys_colon (h : Starts tail) (ht : Obeys ⟨n, .outside⟩ tail) :
    Obeys ⟨n, .outside⟩ (':' :: ' ' :: tail) := by
  obtain ⟨c, hhead, _, hbreak⟩ := h.head
  have hblank : Obeys ⟨n, .outside⟩ (' ' :: tail) :=
    obeys_blank (by rw [hhead]; simpa using hbreak) ht
  exact obeys_quiet [':'] (List.all_eq_true.mp rfl) hblank

/-- A member of a mapping or of a tagged value on its line. -/
theorem obeys_member (name : String) (h : Starts tail) (ht : Obeys ⟨n, .outside⟩ tail) :
    BeginsLine (member n name tail) ∧ Obeys ⟨n, .outside⟩ (member n name tail) :=
  obeys_line (starts_writeString name _) (obeys_writeString name (obeys_colon h ht))

mutual

theorem obeys_write (level : Nat) : (t : Tree) → {tail : List Char} → Obeys ⟨level, .outside⟩ tail →
    Obeys ⟨level, .outside⟩ (write level t tail)
  | .null, _, ht => obeys_quiet "null".toList (List.all_eq_true.mp rfl) ht
  | .bool true, _, ht => obeys_quiet "true".toList (List.all_eq_true.mp rfl) ht
  | .bool false, _, ht => obeys_quiet "false".toList (List.all_eq_true.mp rfl) ht
  | .int k, _, ht => obeys_quiet _ (isQuiet_intText k) ht
  | .float x, _, ht => by
      rw [write]
      split
      · exact obeys_quiet _ (isQuiet_text ‹_›) ht
      · exact obeys_quiet "null".toList (List.all_eq_true.mp rfl) ht
  | .str text, _, ht => obeys_writeString text ht
  | .seq [], _, ht => obeys_opening (Or.inl rfl) (Or.inl rfl) (obeys_closing (Or.inl rfl) ht)
  | .seq (t :: ts), _, ht => by
      have hitems := obeys_writeItems (level + 1) ts (obeys_end (Or.inl rfl) ht)
      obtain ⟨hline, hitem⟩ :=
        obeys_line (starts_write (level + 1) t _) (obeys_write (level + 1) t hitems)
      exact obeys_opening (Or.inl rfl) (Or.inr hline) hitem
  | .map [], _, ht => obeys_opening (Or.inr rfl) (Or.inl rfl) (obeys_closing (Or.inr rfl) ht)
  | .map ((k, v) :: es), _, ht => by
      have hentries := obeys_writeEntries (level + 1) es (obeys_end (Or.inr rfl) ht)
      obtain ⟨hline, hmember⟩ :=
        obeys_member (nameOf k) (starts_write (level + 1) v _) (obeys_write (level + 1) v hentries)
      exact obeys_opening (Or.inr rfl) (Or.inr hline) hmember
  | .tagged name value, _, ht => by
      have hvalue := obeys_write (level + 1) value (obeys_end (Or.inr rfl) ht)
      obtain ⟨hline, hmember⟩ :=
        obeys_member (tagMember name) (starts_write (level + 1) value _) hvalue
      exact obeys_opening (Or.inr rfl) (Or.inr hline) hmember

theorem obeys_writeItems (level : Nat) : (ts : List Tree) → {tail : List Char} →
    Obeys ⟨level, .outside⟩ tail → Obeys ⟨level, .outside⟩ (writeItems level ts tail)
  | [], _, ht => ht
  | t :: ts, _, ht => by
      have hitems := obeys_writeItems level ts ht
      obtain ⟨hline, hitem⟩ := obeys_line (starts_write level t _) (obeys_write level t hitems)
      exact obeys_comma hline hitem

theorem obeys_writeEntries (level : Nat) : (es : Entries) → {tail : List Char} →
    Obeys ⟨level, .outside⟩ tail → Obeys ⟨level, .outside⟩ (writeEntries level es tail)
  | [], _, ht => ht
  | (k, v) :: es, _, ht => by
      have hentries := obeys_writeEntries level es ht
      obtain ⟨hline, hmember⟩ :=
        obeys_member (nameOf k) (starts_write level v _) (obeys_write level v hentries)
      exact obeys_comma hline hmember

end

/-! ## Texts -/

/-- A text that keeps to the rule, ends in a line break and begins with a value. -/
structure Ruled (text : List Char) : Prop where
  obeys : Obeys .start text
  starts : Starts text
  ends : ∃ body, text = body ++ ['\n'] ∧ body ≠ []

theorem ruled_write (t : Tree) : Ruled (write 0 t ['\n']) where
  obeys := obeys_write 0 t
    ⟨⟨by decide, by simp, fun _ => ⟨rfl, Or.inl rfl⟩, by simp [isOpening], by simp [isClosing],
      by simp⟩, trivial⟩
  starts := starts_write 0 t _
  ends := by
    obtain ⟨c, cs, h, _⟩ := starts_write 0 t []
    exact ⟨write 0 t [], write_eq 0 t _, by simp [h]⟩

theorem levelOf_eq {x : Context} {content content' : List Char}
    (h : content.head? = content'.head?) : levelOf x content = levelOf x content' := by
  rw [levelOf, levelOf, h]

theorem behind_newline {before : List Char} (h : (Context.behind before).quoting = .outside) :
    Context.behind (before ++ ['\n']) = .behind before := by
  rw [Context.behind, List.foldl_append]
  change (Context.behind before).step '\n' = _
  simp [Context.step, h, isOpening, isClosing]

/-- A line as far as its line break, where blanks and something else stand. -/
theorem cut_line {k : Nat} {line after content : List Char}
    (h : line ++ '\n' :: after = List.replicate k ' ' ++ content)
    (hc : ∃ c ∈ content.head?, c ≠ ' ' ∧ c ≠ '\n') :
    ∃ content', line = List.replicate k ' ' ++ content' ∧ content'.head? = content.head? := by
  obtain ⟨c, hc, _, hbreak⟩ := hc
  rcases List.append_eq_append_iff.mp h with ⟨blanks, hblanks, hcontent⟩ |
    ⟨content', hline, hcontent⟩
  · -- the line break would be a blank, or what stands behind the blanks
    cases blanks with
    | nil =>
        rw [List.nil_append] at hcontent
        rw [← hcontent] at hc
        cases hc
        exact absurd rfl hbreak
    | cons b blanks =>
        obtain ⟨rfl, _⟩ := List.cons.inj hcontent
        have hmem : '\n' ∈ List.replicate k ' ' := by rw [hblanks]; simp
        cases (List.mem_replicate.mp hmem).2
  · refine ⟨content', hline, ?_⟩
    cases content' with
    | nil =>
        rw [hcontent] at hc
        cases hc
        exact absurd rfl hbreak
    | cons d content' => rw [hcontent]; rfl

namespace Ruled

variable {text before line : List Char}

theorem rule (h : Ruled text) {after : List Char} (ht : text = before ++ c :: after) :
    Rule (.behind before) c after := by
  subst ht
  exact h.obeys.at

/-- No line is empty. -/
theorem single (h : Ruled text) {after : List Char} : text ≠ before ++ '\n' :: '\n' :: after := by
  intro ht
  obtain ⟨_, hrest | ⟨content, hrest, c, hc, hblank, hbreak⟩⟩ := (h.rule ht).lines rfl
  · cases hrest
  · generalize 2 * levelOf _ content = k at hrest
    cases k with
    | zero =>
        rw [List.replicate_zero, List.nil_append] at hrest
        rw [← hrest] at hc
        cases hc
        exact hbreak rfl
    | succ k =>
        rw [List.replicate_succ] at hrest
        cases hrest

theorem ending (h : Ruled text) : ∃ body c, text = body ++ [c, '\n'] ∧ c ≠ '\n' := by
  obtain ⟨body, ht, hne⟩ := h.ends
  obtain ⟨body, c, rfl⟩ := (List.eq_nil_or_concat body).resolve_left hne
  have hbody : text = body ++ [c, '\n'] := by rw [ht]; simp
  refine ⟨body, c, hbody, ?_⟩
  rintro rfl
  exact h.single hbody

theorem indented (h : Ruled text) (hl : IsLine text before line) : ∃ content,
    line = List.replicate (2 * levelOf (.behind before) content) ' ' ++ content ∧
    ∃ c ∈ content.head?, c ≠ ' ' := by
  obtain ⟨after, ht⟩ := hl.part
  rcases hl.first with rfl | hlast
  · obtain ⟨content, hcut, hhead⟩ := cut_line (k := 0) ht.symm h.starts.head
    have hlevel : levelOf (.behind []) content = 0 := by
      rw [levelOf_eq hhead, h.starts.levelOf]; rfl
    obtain ⟨c, hc, hne, _⟩ := h.starts.head
    exact ⟨content, by rw [hlevel]; exact hcut, c, hhead ▸ hc, hne⟩
  · obtain ⟨front, rfl⟩ := List.getLast?_eq_some_iff.mp hlast
    rw [List.append_assoc] at ht
    obtain ⟨hquoting, hrest | ⟨content', hrest, c, hc, hne, hbreak⟩⟩ := (h.rule ht).lines rfl
    · simp at hrest
    · obtain ⟨content, hcut, hhead⟩ := cut_line hrest ⟨c, hc, hne, hbreak⟩
      rw [behind_newline hquoting]
      exact ⟨content, by rw [levelOf_eq hhead]; exact hcut, c, hhead ▸ hc, hne⟩

theorem layout (h : Ruled text) : Layout text where
  ending := h.ending
  printable c hc := by
    obtain ⟨before, after, ht⟩ := List.append_of_mem hc
    exact (h.rule ht).printable
  unbroken before after ht := ((h.rule ht).lines rfl).1
  indented before line hl := h.indented hl
  opening before c after ht := (h.rule ht).opening
  closing before c after ht := (h.rule ht).closing
  separated before after ht hx := (h.rule ht).separated hx rfl
  trimmed before after ht := (h.rule ht).trimmed rfl rfl

end Ruled

/-- The output for a tree is laid out in lines. -/
theorem render_laid_out {document : Tree} {text : String} (h : render document = .ok text) :
    Layout text.toList := by
  obtain ⟨_, rfl⟩ := render_eq_ok.mp h
  rw [String.toList_ofList]
  exact (ruled_write document).layout

/-- Brackets, quotes and a line break in a string, empty collections and a tag. -/
theorem render_laid_out_nested :
    render (.map [(.str "[\"", .seq [.map [], .tagged "t" (.seq [])]), (.int 1, .str "\n\x7b")]) =
        .ok ("\x7b\n  \"[\\\"\": [\n    \x7b\x7d,\n    \x7b\n      \"!t\": []\n    \x7d\n  ],\n" ++
          "  \"1\": \"\\n\x7b\"\n\x7d\n") ∧
      Layout ("\x7b\n  \"[\\\"\": [\n    \x7b\x7d,\n    \x7b\n      \"!t\": []\n    \x7d\n  ],\n" ++
        "  \"1\": \"\\n\x7b\"\n\x7d\n").toList := by
  have h :
      render (.map [(.str "[\"", .seq [.map [], .tagged "t" (.seq [])]), (.int 1, .str "\n\x7b")]) =
        .ok ("\x7b\n  \"[\\\"\": [\n    \x7b\x7d,\n    \x7b\n      \"!t\": []\n    \x7d\n  ],\n" ++
          "  \"1\": \"\\n\x7b\"\n\x7d\n") :=
    Steps.eq_ok_of_toOption (by decide +kernel)
  exact ⟨h, render_laid_out h⟩

end BootConfig.Json
