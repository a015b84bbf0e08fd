import BootConfig.Proofs.Steps
import BootConfig.Yaml.Cursor

/-!
# Reading a text without forbidden characters

Where a cursor stands behind some characters, and what each way of taking characters does when
nothing is forbidden.
-/

namespace BootConfig.Yaml

open Steps

/-! ## Places -/

/-- The number of bytes of a text. -/
def bytes : List Char → Nat
  | [] => 0
  | c :: cs => c.utf8Size + bytes cs

@[simp] theorem bytes_append (cs ds : List Char) : bytes (cs ++ ds) = bytes cs + bytes ds := by
  induction cs with
  | nil => simp [bytes]
  | cons c cs ih => simp [bytes, ih, Nat.add_assoc]

namespace Mark

/-- The place after a character that is not part of a break of two characters. -/
def after (m : Mark) (c : Char) : Mark := if isBreak c then m.nextLine c.utf8Size else m.next c

/-- The place after a text. -/
def past (m : Mark) (cs : List Char) : Mark := cs.foldl after m

@[simp] theorem past_nil (m : Mark) : m.past [] = m := rfl

@[simp] theorem past_cons (m : Mark) (c : Char) (cs : List Char) :
    m.past (c :: cs) = (m.after c).past cs := rfl

theorem past_append (m : Mark) (cs ds : List Char) : m.past (cs ++ ds) = (m.past cs).past ds :=
  List.foldl_append

theorem after_of_not {c : Char} (h : isBreak c = false) (m : Mark) :
    m.after c = m.next c := by simp [after, h]

theorem offset_after (m : Mark) (c : Char) : (m.after c).offset = m.offset + c.utf8Size := by
  unfold after
  split <;> rfl

theorem offset_past (m : Mark) (cs : List Char) : (m.past cs).offset = m.offset + bytes cs := by
  induction cs generalizing m with
  | nil => rfl
  | cons c cs ih => rw [past_cons, ih, offset_after, bytes, Nat.add_assoc]

theorem line_after_le (m : Mark) (c : Char) : m.line ≤ (m.after c).line := by
  unfold after
  split <;> simp [nextLine, next]

theorem line_past_le (m : Mark) (cs : List Char) : m.line ≤ (m.past cs).line := by
  induction cs generalizing m with
  | nil => exact Nat.le_refl _
  | cons c cs ih => exact Nat.le_trans (line_after_le m c) (ih _)

theorem line_past_lt (m : Mark) {c : Char} {cs : List Char} (h : c ∈ cs) (hc : isBreak c = true) :
    m.line < (m.past cs).line := by
  obtain ⟨front, back, rfl⟩ := List.append_of_mem h
  rw [past_append, past_cons]
  have h₁ := line_past_le m front
  have h₂ := line_past_le ((m.past front).after c) back
  have h₃ : ((m.past front).after c).line = (m.past front).line + 1 := by
    simp [Mark.after, hc, nextLine]
  omega

theorem line_past_of_not (m : Mark) {cs : List Char} (h : ∀ c ∈ cs, isBreak c = false) :
    (m.past cs).line = m.line := by
  induction cs generalizing m with
  | nil => rfl
  | cons c cs ih =>
      rw [past_cons, ih _ (fun x hx => h x (List.mem_cons_of_mem _ hx)),
        after_of_not (h c (by simp))]
      rfl

theorem past_of_not (m : Mark) {cs : List Char} (h : ∀ c ∈ cs, isBreak c = false) :
    cs.foldl next m = m.past cs := by
  induction cs generalizing m with
  | nil => rfl
  | cons c cs ih =>
      rw [past_cons, after_of_not (h c (by simp)), List.foldl_cons,
        ih _ (fun x hx => h x (List.mem_cons_of_mem _ hx))]

/-- Further down, or further right in the same line. -/
def Precedes (m m' : Mark) : Prop := m.line < m'.line ∨ m.line = m'.line ∧ m.column < m'.column

theorem Precedes.trans {m m' m'' : Mark} (h : m.Precedes m') (h' : m'.Precedes m'') :
    m.Precedes m'' := by
  unfold Precedes at h h' ⊢
  omega

theorem precedes_next (m : Mark) (c : Char) : m.Precedes (m.next c) :=
  Or.inr ⟨rfl, Nat.lt_succ_self _⟩

theorem precedes_nextLine (m : Mark) (bytes : Nat) : m.Precedes (m.nextLine bytes) :=
  Or.inl (Nat.lt_succ_self _)

theorem precedes_foldl_next (m : Mark) {cs : List Char} (h : cs ≠ []) :
    m.Precedes (cs.foldl next m) := by
  induction cs generalizing m with
  | nil => exact absurd rfl h
  | cons c cs ih =>
      cases cs with
      | nil => exact precedes_next m c
      | cons d cs => exact (precedes_next m c).trans (ih (m.next c) (List.cons_ne_nil _ _))

end Mark

/-! ## Taking characters -/

/-- A text is a run of characters of a class, and a rest that begins with none. -/
theorem exists_run (p : Char → Bool) (cs : List Char) :
    ∃ run rest, cs = run ++ rest ∧ (∀ c ∈ run, p c = true) ∧ rest.head?.all (!p ·) = true := by
  refine ⟨cs.takeWhile p, cs.dropWhile p, (List.takeWhile_append_dropWhile).symm, ?_, ?_⟩
  · exact List.all_eq_true.mp List.all_takeWhile
  · have h := List.head?_dropWhile_not p cs
    cases hd : (cs.dropWhile p).head? with
    | none => rfl
    | some c => rw [hd] at h; simpa using h

namespace Scan

variable {rest : List Char} {m : Mark} {b : Nat}

@[simp] theorem need_free (n : Nat) : need n ⟨rest, m, none, b⟩ = .ok ((), ⟨rest, m, none, b⟩) :=
  rfl

@[simp] theorem peek_free : peek ⟨rest, m, none, b⟩ = .ok (rest.head?, ⟨rest, m, none, b⟩) := rfl

@[simp] theorem mark_free : Scan.mark ⟨rest, m, none, b⟩ = .ok (m, ⟨rest, m, none, b⟩) := rfl

@[simp] theorem bound_free : Scan.bound ⟨rest, m, none, b⟩ = .ok (b, ⟨rest, m, none, b⟩) := rfl

@[simp] theorem skip_free (c : Char) :
    skip ⟨c :: rest, m, none, b⟩ = .ok ((), ⟨rest, m.next c, none, b⟩) := rfl

@[simp] theorem skipMany_one (c : Char) :
    skipMany 1 ⟨c :: rest, m, none, b⟩ = .ok ((), ⟨rest, m.next c, none, b⟩) := rfl

@[simp] theorem skipMany_two (c d : Char) :
    skipMany 2 ⟨c :: d :: rest, m, none, b⟩ = .ok ((), ⟨rest, (m.next c).next d, none, b⟩) := rfl

@[simp] theorem skipMany_four (c d e f : Char) :
    skipMany 4 ⟨c :: d :: e :: f :: rest, m, none, b⟩ =
      .ok ((), ⟨rest, (((m.next c).next d).next e).next f, none, b⟩) := rfl

@[simp] theorem takeWhile_free (p : Char → Bool) :
    takeWhile p ⟨rest, m, none, b⟩ =
      .ok (rest.takeWhile p, ⟨rest.dropWhile p, (rest.takeWhile p).foldl Mark.next m, none, b⟩) :=
  rfl

@[simp] theorem skipWhile_free (p : Char → Bool) :
    skipWhile p ⟨rest, m, none, b⟩ =
      .ok ((), ⟨rest.dropWhile p, (rest.takeWhile p).foldl Mark.next m, none, b⟩) := rfl

/-- A break of one character as it is read. -/
def breakText (c : Char) : Char := if c == lineSeparator || c == paragraphSeparator then c else '\n'

theorem splitBreak?_of_isBreak {c : Char} (h : isBreak c = true) (hr : c ≠ '\r') :
    Cursor.splitBreak? (c :: rest) = some (breakText c, c.utf8Size, rest) := by
  unfold Cursor.splitBreak? breakText
  split
  · rename_i heq; simp only [List.cons.injEq] at heq; exact absurd heq.1 hr
  · rename_i x xs _ heq
    simp only [List.cons.injEq] at heq
    rw [← heq.1, ← heq.2]
    split <;> rfl
  · rename_i heq; cases heq

theorem takeBreak_free {c : Char} (h : isBreak c = true) (hr : c ≠ '\r') :
    takeBreak ⟨c :: rest, m, none, b⟩ = .ok ([breakText c], ⟨rest, m.after c, none, b⟩) := by
  unfold takeBreak
  rw [get_bind]
  simp only [splitBreak?_of_isBreak h hr, Mark.after, h, if_true]
  rfl

theorem skipBreak_free {c : Char} (h : isBreak c = true) (hr : c ≠ '\r') :
    skipBreak ⟨c :: rest, m, none, b⟩ = .ok ((), ⟨rest, m.after c, none, b⟩) := by
  have hm : skipBreak ⟨c :: rest, m, none, b⟩ =
      (takeBreak >>= fun _ => pure ()) ⟨c :: rest, m, none, b⟩ := rfl
  rw [hm, bind_ok (takeBreak_free h hr)]
  rfl

end Scan

namespace Cursor

/-! ## Document marks -/

theorem atDocumentMark_iff {c : Cursor} :
    c.atDocumentMark = true ↔
      c.mark.column = 0 ∧ ∃ x more, (x = '-' ∨ x = '.') ∧ atGapOrEnd more.head? = true ∧
        c.rest = x :: x :: x :: more := by
  rw [atDocumentMark, Bool.and_eq_true, beq_iff_eq]
  refine and_congr_right fun _ => ⟨fun h => ?_, ?_⟩
  · split at h
    · rename_i x y z more hr
      simp only [Bool.and_eq_true, Bool.or_eq_true, beq_iff_eq] at h
      obtain ⟨⟨⟨hx, rfl⟩, rfl⟩, hmore⟩ := h
      exact ⟨_, more, hx, hmore, hr⟩
    · cases h
  · rintro ⟨x, more, hx, hmore, hr⟩
    simp [hr, hx, hmore]

theorem not_atDocumentMark {c : Cursor} (h : ∀ x more, c.rest = x :: more → x ≠ '-' ∧ x ≠ '.') :
    c.atDocumentMark = false := by
  refine Bool.eq_false_iff.mpr fun hmark => ?_
  obtain ⟨_, x, more, hx, _, hr⟩ := atDocumentMark_iff.mp hmark
  exact hx.elim (h x _ hr).1 (h x _ hr).2

/-! ## Texts that can be read -/

theorem readable_of_allowed {text : List Char} (h : ∀ c ∈ text, isAllowed c = true)
    (done block : List Char) (room offset : Nat) :
      readable done block room offset text = (done.reverse ++ (block.reverse ++ text), none) := by
  induction text generalizing done block room offset with
  | nil => simp [readable]
  | cons c cs ih =>
      have hc : isAllowed c = true := h c (by simp)
      have hcs := fun x hx => h x (List.mem_cons_of_mem c hx)
      simp only [readable, hc, if_true]
      split
      · rw [ih hcs]; simp
      · rw [ih hcs]; simp

theorem ofText_of_allowed {text : List Char} (h : ∀ c ∈ text, isAllowed c = true) :
    ofText text = ⟨text, .start, none, text.length + 1⟩ := by
  simp [ofText, readable_of_allowed h]

end Cursor

end BootConfig.Yaml
