import BootConfig.Proofs.Yaml.Complete
import BootConfig.Proofs.Yaml.Denotes
import BootConfig.Proofs.Yaml.Event.Drawn
import BootConfig.Proofs.Yaml.Resolved

/-!
# Scalars by their style

No plain scalar of a text that can be read stands right behind a quote. So the plain switch words
are booleans and plain digits behind a zero integers in base 8, wherever they stand in the text. A
quoted scalar is a string unless its source has an escape.
-/

namespace BootConfig.Yaml

open Json (startsNumber)

/-! ## Words that version 1.2 leaves open -/

namespace Words

namespace OctalForm

variable {text sign ds : List Char}

theorem head (h : OctalForm text sign ds) :
    ∃ c cs, text = c :: cs ∧ (startsNumber c = true ∨ c = '+') := by
  have hs := h.sign
  rw [h.text]
  simp only [List.mem_cons, List.not_mem_nil, or_false] at hs
  rcases hs with rfl | rfl | rfl
  · exact ⟨'0', _, rfl, Or.inl rfl⟩
  · exact ⟨'+', _, rfl, Or.inr rfl⟩
  · exact ⟨'-', _, rfl, Or.inl rfl⟩

theorem base_eq (h : OctalForm text sign ds) : Resolve.base ('0' :: ds) = (10, '0' :: ds) := by
  have hnot : ∀ c, ¬(c = '_' ∨ '0' ≤ c ∧ c ≤ '7') → c ∉ ds := fun c hc hm => hc (h.digits c hm)
  unfold Resolve.base
  split
  · rename_i heq
    cases heq
    exact absurd (List.mem_cons_self) (hnot 'x' (by decide))
  · rename_i heq
    cases heq
    exact absurd (List.mem_cons_self) (hnot 'o' (by decide))
  · rename_i heq
    cases heq
    exact absurd (List.mem_cons_self) (hnot 'b' (by decide))
  · rfl

theorem isZeroLed_eq (h : OctalForm text sign ds) :
    Resolve.isZeroLed text = ds.all Char.isDigit := by
  obtain ⟨d, ds', hds⟩ := List.exists_cons_of_ne_nil h.filled
  simp only [Resolve.isZeroLed, h.sign_eq, hds]

theorem underscore (h : OctalForm text sign ds) (hz : Resolve.isZeroLed text = false) :
    ∃ front rest, ds = front ++ '_' :: rest ∧ ∀ d ∈ front, d.isDigit = true := by
  rw [h.isZeroLed_eq] at hz
  have hsplit : ds.takeWhile Char.isDigit ++ ds.dropWhile Char.isDigit = ds :=
    List.takeWhile_append_dropWhile
  cases hd : ds.dropWhile Char.isDigit with
  | nil =>
      rw [hd, List.append_nil] at hsplit
      rw [← hsplit, List.all_takeWhile] at hz
      cases hz
  | cons c rest =>
      have hnot : c.isDigit = false := by simpa [hd] using List.head?_dropWhile_not Char.isDigit ds
      rw [hd] at hsplit
      have hm : c ∈ ds := by
        rw [← hsplit]
        simp
      rcases h.digits c hm with rfl | hc
      · exact ⟨_, rest, hsplit.symm, fun d hd => List.all_eq_true.mp List.all_takeWhile d hd⟩
      · rw [(isDigit_octal hc).1] at hnot
        cases hnot

theorem int?_eq (h : OctalForm text sign ds) : Resolve.int? text = none := by
  unfold Resolve.int? Resolve.integer?
  rw [h.sign_eq]
  simp only [h.base_eq]
  cases hz : Resolve.isZeroLed text with
  | true => rfl
  | false =>
      obtain ⟨front, rest, hds, _⟩ := h.underscore hz
      have hall : ('0' :: ds).all (Digits.isDigit 10) = false := by
        rw [List.all_eq_false]
        exact ⟨'_', by simp [hds], by decide⟩
      simp [Digits.number?, hall]

theorem float?_eq {text : String} (h : OctalForm text.toList sign ds)
    (hz : Resolve.isZeroLed text.toList = false) : Resolve.float? text = none := by
  obtain ⟨front, rest, hds, hfront⟩ := h.underscore hz
  have hne : ∀ w ∈ [".inf", ".Inf", ".INF", "+.inf", "+.Inf", "+.INF", "-.inf", "-.Inf", "-.INF",
      ".nan", ".NaN", ".NAN"], text ≠ w := by
    rintro w hw rfl
    have hall : ∀ w ∈ [".inf", ".Inf", ".INF", "+.inf", "+.Inf", "+.INF", "-.inf", "-.Inf", "-.INF",
        ".nan", ".NaN", ".NAN"], (Digits.sign w.toList).2.head? = some '.' := by decide
    have := hall _ hw
    rw [h.sign_eq] at this
    cases this
  have hread : Decimal.read? text.toList = none := by
    have hdigits : ∀ d ∈ '0' :: front, d.isDigit = true := List.forall_mem_cons.mpr ⟨rfl, hfront⟩
    have hwhole : '0' :: ds = ('0' :: front) ++ '_' :: rest := congrArg _ hds
    have htake : ('0' :: ds).takeWhile Char.isDigit = '0' :: front := by
      rw [hwhole, List.takeWhile_append_of_pos hdigits]
      exact List.append_nil _
    have hdrop : ('0' :: ds).dropWhile Char.isDigit = '_' :: rest := by
      rw [hwhole, List.dropWhile_append_of_pos hdigits]
      rfl
    unfold Decimal.read?
    rw [h.sign_eq]
    simp only [htake, hdrop]
    rfl
  simp only [List.forall_mem_cons] at hne
  obtain ⟨h₁, h₂, h₃, h₄, h₅, h₆, h₇, h₈, h₉, h₁₀, h₁₁, h₁₂, _⟩ := hne
  simp [Resolve.float?, h₁, h₂, h₃, h₄, h₅, h₆, h₇, h₈, h₉, h₁₀, h₁₁, h₁₂, hread]

/-- Version 1.2 reads no digits behind a zero, nor any with underscores. -/
theorem plain?_eq {text : String} (h : OctalForm text.toList sign ds) :
    Resolve.plain? text = none := by
  obtain ⟨c, cs, hc, hstart⟩ := h.head
  rw [plain?_number hc hstart, h.int?_eq]
  cases hz : Resolve.isZeroLed text.toList with
  | true => rfl
  | false => simp [h.float?_eq hz]

end OctalForm

theorem Says.plain?_eq {text : String} {t : Tree} (h : Says text t) :
    Resolve.plain? text = none := by
  cases h with
  | on h =>
      have hall : onWords.all (Resolve.plain? · |>.isNone) = true := by decide +kernel
      exact Option.isNone_iff_eq_none.mp (List.all_eq_true.mp hall text h)
  | off h =>
      have hall : offWords.all (Resolve.plain? · |>.isNone) = true := by decide +kernel
      exact Option.isNone_iff_eq_none.mp (List.all_eq_true.mp hall text h)
  | octal h => exact h.plain?_eq

end Words

theorem isGap_of_isWordsChar {c : Char} (h : isWordsChar c = true) : isGap c = false := by
  cases hg : isGap c with
  | false => rfl
  | true =>
      rw [isWordsChar_of_isGap hg] at h
      cases h

/-! ## Scalars in a text -/

/-- The token that a scalar is made from. -/
structure Scalar.MadeOf (text : List Char) (c : Scalar) (t : Token) : Prop where
  kind : t.kind = .scalar c.style c.text
  sourced : t.Sourced text
  apart : ¬t.IsTight text
  start : c.start ≤ t.start.offset
  stop : c.stop = t.stop.offset

theorem Tokens.Laid.start_le {text : List Char} {pre post : List Token} {t first : Token}
    (h : Laid text (pre ++ t :: post)) (ht : t.kind.isPart = true) (hm : first ∈ pre ++ [t])
    (hp : first.kind.isPart = true) : first.start.offset ≤ t.start.offset := by
  rcases List.mem_append.mp hm with hm | hm
  · have hparts := h.parts
    rw [List.filter_append, List.map_append, List.filter_cons_of_pos (by exact ht)] at hparts
    exact (List.pairwise_append.mp hparts).2.2 _
      (List.mem_map_of_mem (List.mem_filter.mpr ⟨hm, hp⟩)) _ (by simp)
  · rw [List.mem_singleton.mp hm]

/-- A scalar is empty, or it is made of a token that is not right behind a quote if it is plain. -/
theorem madeOf_of_drawn {text : List Char} {ts : List Token} {e : Event} {c : Scalar}
    (hl : Tokens.Laid text ts) (he : e.Drawn ts)
    (hw : e.Writes c) : c.style = .plain ∧ c.text = "" ∨ ∃ t, c.MadeOf text t := by
  obtain ⟨anchor, hk, hstart, hstop⟩ := hw
  rcases he _ _ _ hk with hempty | ⟨pre, t, post, rfl, ht, hs, hpre, first, hm, hp, hf⟩
  · exact Or.inl hempty
  · have hpart : t.kind.isPart = true := by rw [ht]; rfl
    refine Or.inr ⟨t, ht, hl.sourced t (by simp), fun htight =>
      hpre (hl.apart pre t post rfl htight), ?_, by rw [hstop, hs]⟩
    rw [hstart, hf]
    exact hl.start_le hpart hm hp

theorem Scalar.MadeOf.text_plain {text : List Char} {c : Scalar} {t : Token} (h : c.MadeOf text t)
    (hs : c.style = .plain) : Resolve.text (String.ofList text).toUTF8 c = Words.read c.text := by
  by_cases hr : Words.read c.text = .str c.text
  · rw [text_of_read hr, hr]
  obtain ⟨tag, style, s, start, stop⟩ := c
  obtain rfl : style = .plain := hs
  obtain ⟨source, ⟨done, rest, htext, hstart, hstop⟩, hsource⟩ := h.sourced.plain s h.kind
  have hgap : ∀ x ∈ s.toList, isGap x = false :=
    fun x hx => isGap_of_isWordsChar (isWordsChar_of_read hr x hx)
  obtain rfl : source = s.toList := hsource (fun x hx => by simp [hgap x hx]) fun _ _ => rfl
  have hquote : done.getLast?.any isQuote = false := by
    rw [← Bool.not_eq_true]
    intro hany
    obtain ⟨q, hlast, hq⟩ := (Option.any_eq_true _ _).mp hany
    obtain ⟨front, rfl⟩ := List.getLast?_eq_some_iff.mp hlast
    exact h.apart ⟨⟨s, h.kind⟩, front, q, s.toList ++ rest, by rw [htext, List.append_assoc]; rfl,
      hq, hstart⟩
  obtain rfl : stop = bytes done + bytes s.toList + 0 := h.stop.trans hstop
  rw [htext, text_of_part rfl done rest s (Nat.le_trans h.start (Nat.le_of_eq hstart)), hquote]
  rfl

/-! ## Plain scalars -/

section Read

variable {text : String} {t : Tree} (h : read text = .ok t)

include h

theorem madeOf_of_read {e : Event} (he : e ∈ (Events.ofTokens (.ofText text.toList)).list)
    {c : Scalar} (hw : e.Writes c) :
    c.style = .plain ∧ c.text = "" ∨ ∃ t, c.MadeOf text.toList t := by
  have hlaid := Tokens.ofText_laid (allowed_of_read h)
  exact madeOf_of_drawn hlaid (Events.drawn_ofTokens hlaid.first e he) hw

/-- Where a plain scalar stands makes no difference. -/
theorem scalar_of_plain {e : Event} (he : e ∈ (Events.ofTokens (.ofText text.toList)).list)
    {c : Scalar} (hw : e.Writes c) (htag : c.tag = none) (hstyle : c.style = .plain) :
    Resolve.scalar text.toUTF8 c = .ok ((Resolve.plain? c.text).getD (Words.read c.text)) := by
  have hscalar : Resolve.scalar text.toUTF8 c =
      .ok ((Resolve.plain? c.text).getD (Resolve.text text.toUTF8 c)) := by
    simp only [Resolve.scalar, htag, hstyle, Resolve.isOpen, Resolve.untagged, Option.bind_none,
      decide_true, Bool.and_self, if_true]
  rw [hscalar]
  rcases madeOf_of_read h he hw with ⟨_, hempty⟩ | ⟨t, ht⟩
  · rw [hempty]
    rfl
  · have htext := ht.text_plain hstyle
    rw [String.ofList_toList] at htext
    rw [htext]

/-- What a plain scalar's text says in version 1.1 is what it is read as, wherever it stands in a
text that can be read. -/
theorem read_plain_words :
    (Document.ofText text.toList).Means
    (fun c v => c.tag = none → c.style = .plain → ∀ u, Words.Says c.text u → v = u) t := by
  apply read_means h
  intro c v hevent hv htag hstyle u hu
  obtain ⟨e, he, hw⟩ := hevent
  rw [scalar_of_plain h he hw htag hstyle, hu.plain?_eq, Option.getD_none, hu.read_eq] at hv
  exact (Except.ok.inj hv).symm

end Read

/-- A key, an anchored node and its alias, and an element of a flow sequence, next to quoted
scalars. -/
theorem read_plain_words_nested :
    ∃ t, read "yes: &a -017\nb: [*a, 'on', \"c\",Off]\n" = .ok t ∧
      t.same (.map [(.bool true, .int (-15)),
        (.str "b", .seq [.int (-15), .str "on", .str "c", .bool false])]) = true ∧
      (Document.ofText "yes: &a -017\nb: [*a, 'on', \"c\",Off]\n".toList).Means
        (fun c v => c.tag = none → c.style = .plain → ∀ u, Words.Says c.text u → v = u) t := by
  have h : (read "yes: &a -017\nb: [*a, 'on', \"c\",Off]\n").toOption.any (·.same
      (.map [(.bool true, .int (-15)),
      (.str "b", .seq [.int (-15), .str "on", .str "c", .bool false])])) = true := by
    decide +kernel
  obtain ⟨t, ht, hsame⟩ := (Option.any_eq_true _ _).mp h
  have hread := Steps.eq_ok_of_toOption ht
  exact ⟨t, hread, hsame, read_plain_words hread⟩

/-! ## Quoted scalars -/

/-- Between its quotes, the source of a double-quoted scalar has a backslash. -/
def Scalar.IsEscaped (text : List Char) (c : Scalar) : Prop :=
  ∃ front source rest, text = front ++ '"' :: (source ++ '"' :: rest) ∧ c.start ≤ bytes front ∧
    c.stop = bytes front + bytes source + 2 ∧ '\\' ∈ source

/-- Behind its quote, the text of a scalar is a string. -/
theorem text_of_quoted {tag : Option TagText} {s : String} {start stop : Nat}
    {done rest : List Char} (single : Bool)
    (hstart : start ≤ bytes done) (hstop : stop = bytes done + bytes s.toList + 2) :
    Resolve.text (String.ofList (done ++ Scan.quoteOf single :: (s.toList ++ rest))).toUTF8
      ⟨tag, if single then .singleQuoted else .doubleQuoted, s, start, stop⟩ = .str s := by
  have hq : Resolve.closingQuotes? (if single then .singleQuoted else .doubleQuoted) = some 1 := by
    cases single <;> rfl
  have hquote : isQuote (Scan.quoteOf single) = true := by cases single <;> rfl
  have hsize : bytes (done ++ [Scan.quoteOf single]) = bytes done + 1 := by
    rw [bytes_append]
    cases single <;> rfl
  have hbehind : stop = bytes (done ++ [Scan.quoteOf single]) + bytes s.toList + 1 := by omega
  have htext : done ++ Scan.quoteOf single :: (s.toList ++ rest) =
      (done ++ [Scan.quoteOf single]) ++ (s.toList ++ rest) := by simp
  rw [htext, hbehind, text_of_part hq _ rest s (by omega), List.getLast?_concat,
    Option.any_some, hquote]
  rfl

theorem Scalar.MadeOf.text_quoted {text : List Char} {c : Scalar} {t : Token} {single : Bool}
    (h : c.MadeOf text t) (hs : c.style = if single then .singleQuoted else .doubleQuoted) :
    Resolve.text (String.ofList text).toUTF8 c = .str c.text ∨ single = false ∧
    c.IsEscaped text := by
  obtain ⟨source, ⟨done, rest, htext, hstart, hstop⟩, hsource⟩ :=
    h.sourced.quoted single c.text (by rw [h.kind, hs])
  by_cases hread : Words.read c.text = .str c.text
  · exact Or.inl (text_of_read hread)
  have hword := isWordsChar_of_read hread
  have hsize : bytes (Scan.quoteOf single :: (source ++ [Scan.quoteOf single])) =
      bytes source + 2 := by
    have hq : (Scan.quoteOf single).utf8Size = 1 := by cases single <;> rfl
    simp only [bytes, bytes_append, hq]
    omega
  have hle : c.start ≤ bytes done := hstart ▸ h.start
  have hcstop : c.stop = bytes done + bytes source + 2 := by rw [h.stop, hstop, hsize]; omega
  by_cases hslash : single = false ∧ '\\' ∈ source
  · obtain ⟨rfl, hm⟩ := hslash
    exact Or.inr ⟨rfl, done, source, rest, by rw [htext]; simp [Scan.quoteOf], hle, hcstop, hm⟩
  · obtain rfl : source = c.text.toList := by
      refine hsource (fun x hx => ?_) fun x hx => ?_
      · have hne : x ≠ '\'' := fun he => absurd (hword x hx) (by rw [he]; decide)
        simp [isGap_of_isWordsChar (hword x hx), hne]
      · rcases Bool.eq_false_or_eq_true single with he | he
        · simp [he]
        · have hne : x ≠ '\\' := fun hs => hslash ⟨he, hs ▸ hx⟩
          simp [hne]
    obtain ⟨tag, style, s, start, stop⟩ := c
    obtain rfl : style = if single then .singleQuoted else .doubleQuoted := hs
    rw [htext, List.cons_append, List.append_assoc]
    exact Or.inl (text_of_quoted single hle hcstop)

/-- Every untagged quoted scalar of a text that can be read is a string, if it has no escape in its
source. -/
theorem read_quoted_strings {text : String} {t : Tree} (h : read text = .ok t) :
    (Document.ofText text.toList).Means
    (fun c v => c.tag = none → c.style = .singleQuoted ∨ c.style = .doubleQuoted →
      v = .str c.text ∨ c.style = .doubleQuoted ∧ c.IsEscaped text.toList) t := by
  apply read_means h
  intro c v hevent hv htag hstyle
  obtain ⟨e, he, hw⟩ := hevent
  obtain ⟨single, hs⟩ : ∃ single : Bool, c.style = if single then .singleQuoted
    else .doubleQuoted := by
    rcases hstyle with hs | hs
    · exact ⟨true, hs⟩
    · exact ⟨false, hs⟩
  have hne : c.style ≠ .plain := by rcases hstyle with hs | hs <;> rw [hs] <;> simp
  obtain ⟨t, ht⟩ := (madeOf_of_read h he hw).resolve_left fun hplain => hne hplain.1
  have hscalar : Resolve.scalar text.toUTF8 c = .ok (Resolve.text text.toUTF8 c) := by
    simp [Resolve.scalar, htag, hne]
  rw [hscalar] at hv
  have htext := ht.text_quoted hs
  rw [String.ofList_toList, Except.ok.inj hv] at htext
  refine htext.imp_right fun hescaped => ⟨?_, hescaped.2⟩
  rw [hs, hescaped.1]
  rfl

/-- Digits behind an escape are no string: the byte in front of them is not the quote. -/
example : (read "\"\\x30644\"").toOption.any (·.same (.int 420)) = true := by decide +kernel

end BootConfig.Yaml
