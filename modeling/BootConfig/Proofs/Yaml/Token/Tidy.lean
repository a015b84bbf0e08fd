import BootConfig.Proofs.Yaml.Token.Ends
import BootConfig.Proofs.Yaml.Token.Flow
import BootConfig.Proofs.Yaml.Token.Progress
import BootConfig.Proofs.Yaml.Token.Source

/-!
# The tokens of a text

Every scalar among the tokens has its source in the text, and a plain scalar that begins right
behind a quote comes behind a token that ends another node. Tokens that are put in front of a
possible key never change this, since such a key was remembered where no quote is in front.
-/

namespace BootConfig.Yaml

open Steps
open Yaml.Lex (Covers)

/-! ## Tokens -/

namespace Token

/-- Tokens that end a node. -/
def Kind.endsNode : Kind → Bool
  | .scalar .. | .blockEnd => true
  | _ => false

/-- Tokens that the event of a scalar is made from. -/
def Kind.isPart : Kind → Bool
  | .anchor _ | .tag .. | .scalar .. => true
  | _ => false

variable (text : List Char)

/-- A plain scalar right behind a quote. -/
def IsTight (t : Token) : Prop :=
  (∃ s, t.kind = .scalar .plain s) ∧ ∃ front q rest, text = front ++ q :: rest ∧ isQuote q = true ∧
    t.start.offset = bytes (front ++ [q])

/-- What a flow scalar is written as. -/
structure Sourced (t : Token) : Prop where
  plain : ∀ s, t.kind = .scalar .plain s →
    ∃ source, Covers text t source ∧ Scan.PlainSource source s.toList
  quoted : ∀ single s, t.kind = .scalar (if single then .singleQuoted else .doubleQuoted) s →
    ∃ source, Covers text t (Scan.quoteOf single :: (source ++ [Scan.quoteOf single])) ∧
      Scan.QuotedSource single source s.toList

/-- Of tokens with the newest first, each tight one comes behind the end of a node. -/
def Apart : List Token → Prop
  | [] => True
  | t :: ts => (IsTight text t → ∃ b ∈ ts.head?, b.kind.endsNode = true) ∧ Apart ts

variable {text} {t : Token}

theorem IsTight.isPart (h : IsTight text t) : t.kind.isPart = true := by
  obtain ⟨⟨s, hk⟩, _⟩ := h
  rw [hk]
  rfl

theorem not_isTight (h : t.kind.isPart = false) : ¬IsTight text t := fun ht => by
  rw [ht.isPart] at h
  cases h

theorem Sourced.of_not_scalar (h : ∀ style s, t.kind ≠ .scalar style s) : Sourced text t :=
  ⟨fun s hk => absurd hk (h _ s), fun _ s hk => absurd hk (h _ s)⟩

theorem Sourced.of_not_part (h : t.kind.isPart = false) : Sourced text t :=
  .of_not_scalar fun style s hk => by
  rw [hk] at h
  cases h

/-- A token that is not tight may come between any two, if the one behind it is not tight either. -/
theorem Apart.insert {older : List Token} (ht : ¬IsTight text t) :
    {newer : List Token} → (∀ t' ∈ newer.getLast?, ¬IsTight text t') → Apart text (newer ++ older) →
    Apart text (newer ++ t :: older)
  | [], _, h => ⟨fun h => absurd h ht, h⟩
  | [t'], hlast, h => ⟨fun h => absurd h (hlast t' rfl), fun h => absurd h ht, h.2⟩
  | _ :: t'' :: newer, hlast, h => by
      have hlast' : ∀ x ∈ (t'' :: newer).getLast?, ¬IsTight text x :=
        fun x hx => hlast x (by simpa [List.getLast?_cons_cons] using hx)
      exact ⟨h.1, Apart.insert ht hlast' h.2⟩

end Token

/-! ## The invariant -/

/-- Right behind a quote of the text. -/
def BehindQuote (text rest : List Char) : Prop :=
  ∃ front q, text = front ++ q :: rest ∧ isQuote q = true

/-- What a lexer that has begun keeps: its place in the text, and the order of its tokens and
possible keys. A possible key's first token is not tight. -/
structure Tidy (text : List Char) (c : Cursor) (tokens : List Token) (count : Nat)
    (pending : List PendingKey) : Prop where
  place : ∃ front, text = front ++ c.rest ∧ c.mark.offset = bytes front
  room : c.rest.length < c.bound
  count : count = tokens.length
  parts : (c.mark.offset :: (tokens.filter (·.kind.isPart)).map (·.start.offset)).Pairwise (· ≥ ·)
  first : ∃ t ∈ tokens.getLast?, t.kind.endsNode = false
  sourced : ∀ t ∈ tokens, t.Sourced text
  apart : Token.Apart text tokens
  keys : ∀ k ∈ pending, k.number ≤ tokens.length ∧ ∀ t ∈ tokens.reverse[k.number]?, ¬t.IsTight text
  order : pending.Pairwise fun k k' => k'.number ≤ k.number

/-- Behind a quote no plain scalar begins, or one would come behind the end of a node and could not
be a key. -/
def Quiet (text : List Char) (l : Lexer) : Prop :=
  BehindQuote text l.cursor.rest → l.cursor.Startless l.inFlow ∨
    (∃ t ∈ l.tokens.head?, t.kind.endsNode = true) ∧ l.keyAllowed = false ∧
    ∀ k ∈ l.pending, k.number < l.tokens.length

def Lexer.Tidy (text : List Char) (l : Lexer) : Prop :=
  Yaml.Tidy text l.cursor l.tokens l.count l.pending

theorem append_inj_of_bytes : {front front' rest rest' : List Char} →
    front ++ rest = front' ++ rest' → bytes front = bytes front' → front = front' ∧ rest = rest'
  | [], [], _, _, h, _ => ⟨rfl, h⟩
  | [], c :: front', _, _, _, hb => by
      have := c.utf8Size_pos
      simp only [bytes] at hb
      omega
  | c :: front, [], _, _, _, hb => by
      have := c.utf8Size_pos
      simp only [bytes] at hb
      omega
  | c :: front, c' :: front', _, _, h, hb => by
      obtain ⟨rfl, htail⟩ := List.cons.inj h
      obtain ⟨hf, hr⟩ :=
        append_inj_of_bytes (show front ++ _ = front' ++ _ from htail) (by simpa [bytes] using hb)
      exact ⟨congrArg (c :: ·) hf, hr⟩

section Quiet

variable {text : List Char} {c c' : Cursor}

/-- Where a cursor is closed no quote is in front of it, unless it is at the end. -/
theorem end_of_closed (hp : ∃ front, text = front ++ c.rest) (h : c.Closed c')
    (hq : BehindQuote text c'.rest) : c'.rest = [] := by
  obtain ⟨front, hf⟩ := hp
  obtain ⟨front', q, hf', hquote⟩ := hq
  rcases h with hend | ⟨taken, x, hr, hx⟩
  · exact hend
  · have heq : (front ++ taken ++ [x]) ++ c'.rest = (front' ++ [q]) ++ c'.rest := by
      rw [List.append_assoc, List.append_assoc, List.append_assoc, List.singleton_append,
        List.singleton_append, ← hr, ← hf, hf']
    have hlast := congrArg List.getLast? (List.append_cancel_right heq)
    simp only [List.getLast?_append, List.getLast?_singleton, Option.some_or,
      Option.some.injEq] at hlast
    rw [hlast, hquote] at hx
    cases hx

theorem quiet_of_ends {l' : Lexer} (hp : ∃ front, text = front ++ c.rest)
    (h : l'.cursor.Startless l'.inFlow ∨ c.Closed l'.cursor) :
    Quiet text l' := fun hq => Or.inl (h.elim id fun hc => .of_end (end_of_closed hp hc hq))

end Quiet

namespace Tidy

variable {text : List Char} {c c' : Cursor} {tokens newer older : List Token} {count : Nat}
  {pending pending' : List PendingKey} {t : Token}

theorem forget (h : Tidy text c tokens count pending) (hp : pending'.Sublist pending) :
    Tidy text c tokens count pending' :=
  { h with keys := fun k hk => h.keys k (hp.subset hk), order := h.order.sublist hp }

theorem front (h : Tidy text c tokens count pending) : ∃ front, text = front ++ c.rest :=
  h.place.imp fun _ hf => hf.1

theorem place_before (h : Tidy text c tokens count pending) (hb : c.Before c') :
    ∃ front, text = front ++ c'.rest ∧ c'.mark.offset = bytes front := by
  obtain ⟨front, hf, ho⟩ := h.place
  obtain ⟨taken, hr, ho'⟩ := hb.passed
  exact ⟨front ++ taken, by rw [hf, hr, List.append_assoc], by rw [ho', ho, bytes_append]⟩

theorem offset_le (hb : c.Before c') : c.mark.offset ≤ c'.mark.offset := by
  obtain ⟨taken, _, ho⟩ := hb.passed
  rw [ho]
  exact Nat.le_add_right _ _

/-- A later place is behind all that an earlier one is behind. -/
theorem parts_later {m m' : Nat} {offsets : List Nat} (h : (m :: offsets).Pairwise (· ≥ ·))
    (hm : m ≤ m') : (m' :: m :: offsets).Pairwise (· ≥ ·) := by
  refine List.pairwise_cons.mpr ⟨fun x hx => ?_, h⟩
  rcases List.mem_cons.mp hx with rfl | hx
  · exact hm
  · exact Nat.le_trans ((List.pairwise_cons.mp h).1 x hx) hm

theorem move (h : Tidy text c tokens count pending) (hb : c.Before c') :
    Tidy text c' tokens count pending :=
  { h with
    place := h.place_before hb
    room := by rw [hb.bound]; exact Nat.lt_of_le_of_lt hb.rest h.room
    parts :=
      (parts_later h.parts (offset_le hb)).sublist (.cons_cons _ (List.sublist_cons_self _ _)) }

/-- A new token, scanned from where the cursor was. -/
theorem emit (h : Tidy text c tokens count pending) (hb : c.Before c') (hs : t.Sourced text)
    (hstart : t.kind.isPart = true → t.start.offset = c.mark.offset)
    (ht : t.IsTight text → (∃ b ∈ tokens.head?, b.kind.endsNode = true) ∧
      ∀ k ∈ pending, k.number < tokens.length) :
    Tidy text c' (t :: tokens) (count + 1) pending where
  place := h.place_before hb
  room := (h.move hb).room
  count := by rw [h.count, List.length_cons]
  parts := by
    cases hp : t.kind.isPart with
    | true =>
        simp only [List.filter_cons, hp, if_true, List.map_cons, hstart hp]
        exact parts_later h.parts (offset_le hb)
    | false =>
        simp only [List.filter_cons, hp, Bool.false_eq_true, if_false]
        exact (h.move hb).parts
  first := by
    obtain ⟨t', ht', he⟩ := h.first
    refine ⟨t', ?_, he⟩
    rw [List.getLast?_cons, Option.mem_def.mp ht']
    rfl
  sourced := List.forall_mem_cons.mpr ⟨hs, h.sourced⟩
  apart := ⟨fun h => (ht h).1, h.apart⟩
  keys k hk := by
    obtain ⟨hle, hfirst⟩ := h.keys k hk
    refine ⟨Nat.le_succ_of_le hle, fun t' ht' => ?_⟩
    rw [List.reverse_cons] at ht'
    rcases Nat.lt_or_eq_of_le hle with hlt | heq
    · rw [List.getElem?_append_left (by simpa using hlt)] at ht'
      exact hfirst t' ht'
    · rw [heq, List.getElem?_append_right (by simp), List.length_reverse, Nat.sub_self] at ht'
      cases ht'
      exact fun htight => absurd ((ht htight).2 k hk) (by omega)
  order := h.order

theorem emit_other (h : Tidy text c tokens count pending) (hb : c.Before c')
    (hp : t.kind.isPart = false) : Tidy text c' (t :: tokens) (count + 1) pending :=
  h.emit hb (.of_not_part hp) (fun h => by rw [hp] at h; cases h) fun h =>
    absurd h (Token.not_isTight hp)

/-- A token in front of the one that a possible key begins with. -/
theorem insert (h : Tidy text c (newer ++ older) count pending) (hp : t.kind.isPart = false)
    (he : t.kind.endsNode = false) (hlast : ∀ t' ∈ newer.getLast?, ¬t'.IsTight text)
    (hle : ∀ k ∈ pending, k.number ≤ older.length) :
    Tidy text c (newer ++ t :: older) (count + 1) pending where
  place := h.place
  room := h.room
  count := by simp [h.count, Nat.add_assoc]
  parts := by
    have hparts := h.parts
    simp only [List.filter_append, List.filter_cons, hp, Bool.false_eq_true, if_false] at hparts ⊢
    exact hparts
  first := by
    cases older with
    | nil => exact ⟨t, by simp, he⟩
    | cons t' older =>
        obtain ⟨x, hx, he⟩ := h.first
        refine ⟨x, ?_, he⟩
        simpa [List.getLast?_append, List.getLast?_cons] using hx
  sourced x hx := by
    rcases List.mem_append.mp hx with hx | hx
    · exact h.sourced x (List.mem_append_left _ hx)
    · rcases List.mem_cons.mp hx with rfl | hx
      · exact .of_not_part hp
      · exact h.sourced x (List.mem_append_right _ hx)
  apart := h.apart.insert (Token.not_isTight hp) hlast
  keys k hk := by
    refine ⟨by have := hle k hk; simp; omega, fun x hx => ?_⟩
    have hfirst := (h.keys k hk).2
    rw [List.reverse_append, List.reverse_cons, List.append_assoc] at hx
    rw [List.reverse_append] at hfirst
    -- a key of the older tokens keeps its token, one behind them begins with the new one
    rcases Nat.lt_or_eq_of_le (hle k hk) with hlt | heq
    · rw [List.getElem?_append_left (by simpa using hlt)] at hx hfirst
      exact hfirst x hx
    · rw [heq, List.getElem?_append_right (by simp), List.length_reverse, Nat.sub_self] at hx
      cases hx
      exact Token.not_isTight hp
  order := h.order

/-- Block collections end here. -/
theorem close (h : Tidy text c tokens count pending) (here : Mark) :
    (n : Nat) → Tidy text c (List.replicate n ⟨.blockEnd, here, here⟩ ++ tokens) (count + n) pending
  | 0 => h
  | n + 1 => (h.close here n).emit_other (.refl c) rfl

end Tidy

end BootConfig.Yaml
