import BootConfig.Proofs.Yaml.Shown

/-!
# Reading undoes rendering

A tree of null, booleans, integers, strings, sequences and mappings, whose keys are different texts
and not too long, comes back from its text when its strings have only characters that are written
and read as they are, and it is not too deep.
-/

namespace BootConfig

open Json

/-! ## Safe trees -/

namespace Yaml

/-- The characters that come back from a quoted scalar. -/
def isSafe (c : Char) : Bool :=
  let n := c.toNat
  n ≤ 0x7E || (0xA0 ≤ n && n ≤ 0xD7FF && n != 0x2028 && n != 0x2029) ||
    (0xE000 ≤ n && n ≤ 0xFFFD && n != 0xFEFF) || 0x10000 ≤ n

def SafeText (s : String) : Prop := s.toList.all isSafe = true

theorem SafeText.safe {s : String} (h : SafeText s) : ∀ c ∈ s.toList, isSafe c = true :=
  List.all_eq_true.mp h

end Yaml

namespace Tree

open Yaml (SafeText)

mutual

/-- A tree that comes back from its text, unless it is too deep. -/
def Safe : Tree → Prop
  | .null | .bool _ => True
  | .int n => -9223372036854775808 ≤ n ∧ n ≤ 18446744073709551615
  | .str s => SafeText s
  | .seq items => SafeItems items
  | .map entries => Entries.OneEach entries ∧ SafeEntries entries
  | .float _ | .tagged _ _ => False

def SafeItems : List Tree → Prop
  | [] => True
  | t :: ts => Safe t ∧ SafeItems ts

/-- Keys are texts within reach of their colons. -/
def SafeEntries : Entries → Prop
  | [] => True
  | (k, v) :: es =>
    (∃ name, k = .str name ∧ SafeText name ∧
        Yaml.bytes (writeString name []) ≤ Yaml.PendingKey.reach) ∧ Safe v ∧ SafeEntries es

end

mutual

theorem Safe.standard : (t : Tree) → t.Safe → t.Standard
  | .null, _ | .bool _, _ | .str _, _ => trivial
  | .int _, h => Yaml.Resolve.fits_iff.mpr ⟨h.1, by have := h.2; omega⟩
  | .float _, h => h.elim
  | .seq items, h => SafeItems.standard items h
  | .map es, h => SafeEntries.standard es h.2
  | .tagged _ _, h => h.elim

theorem SafeItems.standard : (ts : List Tree) → SafeItems ts → StandardItems ts
  | [], _ => trivial
  | t :: ts, h => ⟨Safe.standard t h.1, SafeItems.standard ts h.2⟩

theorem SafeEntries.standard : (es : Entries) → SafeEntries es → StandardEntries es
  | [], _ => trivial
  | (_, v) :: es, h =>
      ⟨by obtain ⟨name, hk, _⟩ := h.1; exact ⟨name, hk⟩, Safe.standard v h.2.1,
        SafeEntries.standard es h.2.2⟩

end

mutual

theorem Safe.distinct : (t : Tree) → t.Safe → t.All (fun _ => True) Entries.OneEach
  | .null, _ | .bool _, _ | .str _, _ | .int _, _ => trivial
  | .float _, h => h.elim
  | .seq items, h => SafeItems.distinct items h
  | .map es, h => ⟨h.1, SafeEntries.distinct es h.2⟩
  | .tagged _ _, h => h.elim

theorem SafeItems.distinct : (ts : List Tree) → SafeItems ts →
    AllItems (fun _ => True) Entries.OneEach ts
  | [], _ => trivial
  | t :: ts, h => ⟨Safe.distinct t h.1, SafeItems.distinct ts h.2⟩

theorem SafeEntries.distinct : (es : Entries) → SafeEntries es →
    AllEntries (fun _ => True) Entries.OneEach es
  | [], _ => trivial
  | (_, v) :: es, h => ⟨Safe.distinct v h.2.1, SafeEntries.distinct es h.2.2⟩

end

end Tree

namespace Yaml

/-! ## Safe texts -/

theorem isSafe_soft {c : Char} (h : isSafe c = true) (hs : isSoft c = true) : c = ' ' := by
  simp only [isSoft, Bool.or_eq_true, beq_iff_eq] at hs
  rcases hs with ((rfl | rfl) | rfl) | rfl
  · rfl
  · revert h; decide
  · revert h; decide
  · revert h; decide

theorem refold?_spaces : (cs : List Char) → (∀ c ∈ cs, isSoft c = true → c = ' ') →
    refold? cs = some cs ∧
      ∀ blanks, refoldGap? ⟨blanks, [], [], false⟩ false cs = some (blanks.reverse ++ cs)
  | [], _ => ⟨rfl, fun blanks => by simp [refoldGap?, Gap.text]⟩
  | c :: cs, h => by
      obtain ⟨ih, ihgap⟩ := refold?_spaces cs fun x hx => h x (List.mem_cons_of_mem _ hx)
      cases hs : isSoft c with
      | true =>
          obtain rfl := h c (by simp) hs
          have hb : isBreak ' ' = false := rfl
          refine ⟨?_, fun blanks => ?_⟩
          · rw [refold?, if_pos hs, hb]
            exact ihgap [' ']
          · rw [refoldGap?, if_pos hs, hb]
            simpa [Gap.add, Gap.addBlank] using ihgap (' ' :: blanks)
      | false =>
          refine ⟨?_, fun blanks => ?_⟩
          · rw [refold?, hs, ih]
            rfl
          · rw [refoldGap?, hs, ih]
            simp [Gap.text]

theorem refoldText?_safe {s : String} (h : SafeText s) : refoldText? s = some s := by
  rw [refoldText?, (refold?_spaces s.toList fun c hc => isSafe_soft (h.safe c hc)).1]
  simp

theorem isAllowed_safe {c : Char} (h : isSafe c = true) (h32 : 32 ≤ c.toNat) :
    isAllowed c = true ∧ isBreak c = false := by
  have hne : ∀ d : Char, c.toNat ≠ d.toNat → (c == d) = false :=
    fun d hd => beq_false_of_ne (by rintro rfl; exact hd rfl)
  simp only [isSafe, Bool.or_eq_true, Bool.and_eq_true, decide_eq_true_eq, bne_iff_ne] at h
  refine ⟨?_, ?_⟩
  · simp only [isAllowed, Bool.or_eq_true, Bool.and_eq_true, decide_eq_true_eq]
    omega
  · simp only [isBreak, Bool.or_eq_false_iff]
    refine ⟨⟨⟨⟨hne _ ?_, hne _ ?_⟩, hne _ ?_⟩, hne _ ?_⟩, hne _ ?_⟩
    · change c.toNat ≠ 0x0A; omega
    · change c.toNat ≠ 0x0D; omega
    · change c.toNat ≠ 0x85; omega
    · change c.toNat ≠ 0x2028; omega
    · change c.toNat ≠ 0x2029; omega

theorem isAllowed_escape {c : Char} (h : isSafe c = true) :
    ∀ x ∈ escape c, isAllowed x = true ∧ isBreak x = false := by
  have he := escaped c
  cases hw : escape c with
  | nil => exact absurd hw (escape_ne_nil c)
  | cons x w =>
      rw [hw] at he
      cases he with
      | itself h32 _ _ => simpa using isAllowed_safe h h32
      | @letter x hl =>
          have hall : ∀ p ∈ escapeLetters, isAllowed p.1 = true ∧ isBreak p.1 = false := by decide
          intro y hy
          simp only [List.mem_cons, List.not_mem_nil, or_false] at hy
          rcases hy with rfl | rfl
          · decide
          · exact hall (y, c) hl
      | number hn =>
          have hall : ∀ d < 16, isAllowed (Digits.lowerHex d) = true ∧
              isBreak (Digits.lowerHex d) = false := by decide
          have h₁ := hall (c.toNat / 16) (by omega)
          have h₂ := hall (c.toNat % 16) (by omega)
          have hu : isAllowed '\\' = true ∧ isBreak '\\' = false ∧ isAllowed 'u' = true ∧
              isBreak 'u' = false ∧ isAllowed '0' = true ∧ isBreak '0' = false := by decide
          simp [h₁, h₂, hu]

theorem isAllowed_writeString {s : String} (h : SafeText s) :
    ∀ x ∈ writeString s [], isAllowed x = true ∧ isBreak x = false := by
  intro x hx
  simp only [writeString, List.mem_cons, List.mem_append, List.mem_flatMap, List.not_mem_nil,
    or_false] at hx
  rcases hx with rfl | ⟨c, hc, hx⟩ | rfl
  · decide
  · exact isAllowed_escape (h.safe c hc) x hx
  · decide

theorem isSimple_safe {s : String} (h : SafeText s)
    (hb : bytes (writeString s []) ≤ PendingKey.reach) : Lex.IsSimple s :=
  ⟨fun c hc => (isAllowed_writeString h c hc).2, hb⟩

/-! ## Safe trees -/

mutual

theorem reread?_safe : (t : Tree) → t.Safe → reread? t = some t
  | .null, _ | .bool _, _ | .int _, _ => rfl
  | .str s, h => by rw [reread?, refoldText?_safe h]; rfl
  | .float _, h => h.elim
  | .seq items, h => by rw [reread?, rereadItems?_safe items h]; rfl
  | .map es, h => by rw [reread?, rereadEntries?_safe es h.2]; rfl
  | .tagged _ _, h => h.elim

theorem rereadItems?_safe : (ts : List Tree) → Tree.SafeItems ts → rereadItems? ts = some ts
  | [], _ => rfl
  | t :: ts, h => by rw [rereadItems?, reread?_safe t h.1, rereadItems?_safe ts h.2]; rfl

theorem rereadEntries?_safe : (es : Entries) → Tree.SafeEntries es → rereadEntries? es = some es
  | [], _ => rfl
  | (k, v) :: es, h => by
      obtain ⟨⟨name, rfl, hname, _⟩, hv, hes⟩ := h
      rw [rereadEntries?, reread?, refoldText?_safe hname, reread?_safe v hv,
        rereadEntries?_safe es hes]
      rfl

end

mutual

theorem allNames_safe : (t : Tree) → t.Safe → t.AllNames Lex.IsSimple
  | .null, _ | .bool _, _ | .int _, _ | .str _, _ => trivial
  | .float _, h => h.elim
  | .seq items, h => allNamesItems_safe items h
  | .map es, h => allNamesEntries_safe es h.2
  | .tagged _ _, h => h.elim

theorem allNamesItems_safe : (ts : List Tree) → Tree.SafeItems ts →
    Tree.AllNamesItems Lex.IsSimple ts
  | [], _ => trivial
  | t :: ts, h => ⟨allNames_safe t h.1, allNamesItems_safe ts h.2⟩

theorem allNamesEntries_safe : (es : Entries) → Tree.SafeEntries es →
    Tree.AllNamesEntries Lex.IsSimple es
  | [], _ => trivial
  | (k, v) :: es, h => by
      obtain ⟨⟨name, rfl, hname, hb⟩, hv, hes⟩ := h
      refine ⟨fun s hs => ?_, allNames_safe v hv, allNamesEntries_safe es hes⟩
      cases hs
      exact isSimple_safe hname hb

end

/-- All characters may be read. -/
def AllAllowed (cs : List Char) : Prop := ∀ c ∈ cs, isAllowed c = true

theorem AllAllowed.cons {c : Char} {cs : List Char} (hc : isAllowed c = true) (h : AllAllowed cs) :
    AllAllowed (c :: cs) :=
  List.forall_mem_cons.mpr ⟨hc, h⟩

theorem AllAllowed.append {cs ds : List Char} (h : AllAllowed cs) (h' : AllAllowed ds) :
    AllAllowed (cs ++ ds) :=
  List.forall_mem_append.mpr ⟨h, h'⟩

theorem AllAllowed.newline {cs : List Char} (level : Nat) (h : AllAllowed cs) :
    AllAllowed (newline level cs) :=
  .cons rfl (.append (fun c hc => by rw [List.eq_of_mem_replicate hc]; rfl) h)

theorem AllAllowed.writeString {s : String} {tail : List Char} (hs : SafeText s)
    (h : AllAllowed tail) : AllAllowed (writeString s tail) := by
  rw [Lex.writeString_eq_append]
  exact .append (fun c hc => (isAllowed_writeString hs c hc).1) h

theorem isAllowed_digit {c : Char} (h : c.isDigit = true) : isAllowed c = true := by
  have := Digits.isDigit_bounds h
  simp only [isAllowed, Bool.or_eq_true, Bool.and_eq_true, decide_eq_true_eq]
  omega

mutual

theorem allAllowed_write (level : Nat) : (t : Tree) → (tail : List Char) → t.Safe →
    AllAllowed tail → AllAllowed (write level t tail)
  | .null, _, _, h => .cons rfl (.cons rfl (.cons rfl (.cons rfl h)))
  | .bool b, _, _, h => by
      cases b <;> exact .append (List.all_eq_true.mp rfl) h
  | .int n, _, _, h => by
      have hd : AllAllowed (Nat.toDigits 10 n.natAbs) :=
        fun c hc => isAllowed_digit (Digits.isDigit_of_mem_toDigits hc)
      rw [write, toList_intText]
      split
      · exact .append (.cons rfl hd) h
      · exact .append hd h
  | .float _, _, hs, _ => hs.elim
  | .str s, _, hs, h => .writeString hs h
  | .seq [], _, _, h => .cons rfl (.cons rfl h)
  | .seq (t :: ts), _, hs, h =>
      .cons rfl (.newline _ (allAllowed_write (level + 1) t _ hs.1
        (allAllowed_writeItems (level + 1) ts _ hs.2 (.newline _ (.cons rfl h)))))
  | .map [], _, _, h => .cons rfl (.cons rfl h)
  | .map ((k, v) :: es), _, hs, h => by
      obtain ⟨_, ⟨name, rfl, hname, _⟩, hv, hes⟩ := hs
      exact .cons rfl (.newline _ (.writeString hname (.cons rfl (.cons rfl
        (allAllowed_write (level + 1) v _ hv
          (allAllowed_writeEntries (level + 1) es _ hes (.newline _ (.cons rfl h))))))))
  | .tagged _ _, _, hs, _ => hs.elim

theorem allAllowed_writeItems (level : Nat) : (ts : List Tree) → (tail : List Char) →
    Tree.SafeItems ts → AllAllowed tail → AllAllowed (writeItems level ts tail)
  | [], _, _, h => h
  | t :: ts, _, hs, h =>
      .cons rfl
        (.newline _ (allAllowed_write level t _ hs.1 (allAllowed_writeItems level ts _ hs.2 h)))

theorem allAllowed_writeEntries (level : Nat) : (es : Entries) → (tail : List Char) →
    Tree.SafeEntries es → AllAllowed tail → AllAllowed (writeEntries level es tail)
  | [], _, _, h => h
  | (k, v) :: es, _, hs, h => by
      obtain ⟨⟨name, rfl, hname, _⟩, hv, hes⟩ := hs
      exact .cons rfl (.newline _ (.writeString hname (.cons rfl (.cons rfl
        (allAllowed_write level v _ hv (allAllowed_writeEntries level es _ hes h))))))

end

mutual

theorem keyFault?_standard : (t : Tree) → t.Standard → keyFault? t = none
  | .null, _ | .bool _, _ | .int _, _ | .float _, _ | .str _, _ => rfl
  | .seq items, h => keyFaultItems?_standard items h
  | .map es, h => keyFaultEntries?_standard es h
  | .tagged _ _, h => h.elim

theorem keyFaultItems?_standard : (ts : List Tree) → Tree.StandardItems ts →
    keyFaultItems? ts = none
  | [], _ => rfl
  | t :: ts, h => by
      rw [keyFaultItems?, keyFault?_standard t h.1, keyFaultItems?_standard ts h.2]; rfl

theorem keyFaultEntries?_standard : (es : Entries) → Tree.StandardEntries es →
    keyFaultEntries? es = none
  | [], _ => rfl
  | (k, v) :: es, h => by
      obtain ⟨⟨name, rfl⟩, hv, hes⟩ := h
      rw [keyFaultEntries?, keyFault?_standard v hv, keyFaultEntries?_standard es hes]
      rfl

end

/-- A safe tree is written, and its text is read as the tree with its entries in order. -/
theorem read_render {document : Tree} (h : document.Safe) (hd : document.depth ≤ maxDepth) :
    ∃ text, render document = .ok text ∧ read text = .ok document := by
  have hs := Tree.Safe.standard document h
  refine ⟨String.ofList (write 0 document ['\n']), ?_, ?_⟩
  · rw [render, keyFault?_standard document hs]
  · have hr := read_written hs (reread?_safe document h) (allNames_safe document h)
      (allAllowed_write 0 document ['\n'] h (by simp [AllAllowed, isAllowed])) hd
    rw [hr, Tree.gather_eq document hs (Tree.Safe.distinct document h)]

/-- Texts that are no words, in strings and as keys, next to values that are what they are. -/
theorem read_render_words :
    (Tree.map [(.str "yes", .seq [.str "0644", .str "null", .str "", .int (-12), .bool true]),
        (.str "<<", .map [(.str "a  \u00e9\n", .str "\"on\""), (.str "12", .null)])]).Safe ∧
      ∃ text,
        render (.map
          [(.str "yes", .seq [.str "0644", .str "null", .str "", .int (-12), .bool true]),
          (.str "<<", .map [(.str "a  \u00e9\n", .str "\"on\""), (.str "12", .null)])]) = .ok text ∧
        read text = .ok (.map
          [(.str "yes", .seq [.str "0644", .str "null", .str "", .int (-12), .bool true]),
          (.str "<<", .map [(.str "a  \u00e9\n", .str "\"on\""), (.str "12", .null)])]) := by
  have h : (Tree.map
      [(.str "yes", .seq [.str "0644", .str "null", .str "", .int (-12), .bool true]),
        (.str "<<", .map [(.str "a  \u00e9\n", .str "\"on\""), (.str "12", .null)])]).Safe := by
    have hinner : (Tree.map [(.str "a  \u00e9\n", .str "\"on\""), (.str "12", .null)]).Safe :=
      ⟨show List.Nodup _ by decide, ⟨_, rfl, rfl, by decide⟩, rfl, ⟨_, rfl, rfl, by decide⟩,
        trivial, trivial⟩
    have hitems : (Tree.seq [.str "0644", .str "null", .str "", .int (-12), .bool true]).Safe :=
      ⟨rfl, rfl, rfl, ⟨by decide, by decide⟩, trivial, trivial⟩
    exact ⟨show List.Nodup _ by decide, ⟨_, rfl, rfl, by decide⟩, hitems, ⟨_, rfl, rfl, by decide⟩,
      hinner, trivial⟩
  exact ⟨h, read_render h (by decide)⟩

end Yaml

end BootConfig
