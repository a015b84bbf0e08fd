import BootConfig.Proofs.Steps
import BootConfig.Proofs.Tree.Keyed
import BootConfig.Proofs.Yaml.Styled
import BootConfig.Yaml.Handed

/-!
# What handed values become

A boolean or a number comes from a value of its kind, or from a text of the input that is a word of
version 1.1 and has no quote right in front of it; every other text stays as it is. The first
refused value refuses the whole. What surrounds the input makes no difference.
-/

namespace BootConfig

/-- A boolean or a number. -/
def Tree.IsTyped : Tree → Prop
  | bool _ | int _ | float _ => True
  | _ => False

namespace Yaml

/-! ## Texts of the input -/

namespace Buffer

variable {b b' : Buffer} {start stop : Nat}

/-- The bytes lie in the input. -/
structure Inside (b : Buffer) (start stop : Nat) : Prop where
  first : b.before.size ≤ start
  last : stop ≤ b.before.size + b.input.size

/-- The bytes lie in the input, and no quote of the input stands right in front of them. -/
structure IsPlain (b : Buffer) (start stop : Nat) : Prop extends b.Inside start stop where
  bare : ∀ i, b.before.size + i + 1 = start → ∀ q ∈ b.input[i]?, q ≠ '"'.toUInt8 ∧ q ≠ '\''.toUInt8

theorem quoteBefore_iff {input : ByteArray} {n : Nat} :
    Resolve.quoteBefore input (n + 1) = true ↔
      ∃ q ∈ input[n]?, q = '"'.toUInt8 ∨ q = '\''.toUInt8 := by
  have hd : '"'.toUInt8 = 34 := by decide
  have hs : '\''.toUInt8 = 39 := by decide
  rw [hd, hs, Resolve.quoteBefore]
  generalize input[n]? = q
  cases q <;> simp

theorem isUnquoted_iff : b.isUnquoted start stop = true ↔ b.IsPlain start stop := by
  unfold isUnquoted
  simp only [Bool.and_eq_true, decide_eq_true_eq, Bool.not_eq_true']
  constructor
  · rintro ⟨⟨hfirst, hlast⟩, hbare⟩
    refine ⟨⟨hfirst, hlast⟩, fun i hi q hq => ?_⟩
    have hn : start - b.before.size = i + 1 := by omega
    rw [hn] at hbare
    have hnot := mt quoteBefore_iff.mpr (by rw [hbare]; simp)
    simpa [not_or] using fun h => hnot ⟨q, hq, h⟩
  · rintro ⟨hinside, hbare⟩
    refine ⟨⟨hinside.first, hinside.last⟩, ?_⟩
    cases hn : start - b.before.size with
    | zero => rfl
    | succ i =>
        rw [← Bool.not_eq_true, quoteBefore_iff]
        rintro ⟨q, hq, h⟩
        obtain ⟨hd, hs⟩ := hbare i (by omega) q hq
        exact h.elim hd hs

theorem slice_eq {text : String} (h : b.bytes.extract start stop = text.toUTF8) :
    b.slice start stop = text := by
  rw [slice, h, String.toUTF8_eq_toByteArray, String.fromUTF8?, dif_pos text.isValidUTF8]
  rfl

/-- Bytes of the input are found behind what stands in front of it. -/
theorem extract_bytes {i j : Nat} (h : j ≤ b.input.size) :
    b.bytes.extract (b.before.size + i) (b.before.size + j) = b.input.extract i j := by
  have hafter : b.after.extract (i - b.input.size) 0 = ByteArray.empty :=
    ByteArray.extract_eq_empty_iff.mpr (by simp)
  rw [bytes, ByteArray.append_assoc, ByteArray.extract_append_size_add, ByteArray.extract_append,
    Nat.sub_eq_zero_of_le h, hafter, ByteArray.append_empty]

/-! ## Texts in another buffer -/

/-- Where a place of the input is in another buffer. -/
def placeIn (b b' : Buffer) (place : Nat) : Nat := b'.before.size + (place - b.before.size)

theorem Inside.bytes_moved (h : b.Inside start stop) (hi : b'.input = b.input) :
    b'.bytes.extract (b.placeIn b' start) (b.placeIn b' stop) = b.bytes.extract start stop := by
  obtain ⟨hfirst, hlast⟩ := h
  rcases Nat.le_total start stop with horder | horder
  · obtain ⟨i, rfl⟩ := Nat.exists_eq_add_of_le hfirst
    obtain ⟨j, rfl⟩ := Nat.exists_eq_add_of_le (Nat.le_trans hfirst horder)
    have hj : j ≤ b.input.size := by omega
    rw [placeIn, placeIn, Nat.add_sub_cancel_left, Nat.add_sub_cancel_left, extract_bytes hj,
      extract_bytes (hi ▸ hj), hi]
  · have horder' : b.placeIn b' stop ≤ b.placeIn b' start := by unfold placeIn; omega
    rw [ByteArray.extract_eq_empty_iff.mpr (by omega),
      ByteArray.extract_eq_empty_iff.mpr (by omega)]

theorem Inside.slice_moved (h : b.Inside start stop) (hi : b'.input = b.input) :
    b'.slice (b.placeIn b' start) (b.placeIn b' stop) = b.slice start stop := by
  rw [slice, slice, h.bytes_moved hi]

theorem Inside.isUnquoted_moved (h : b.Inside start stop) (hi : b'.input = b.input) :
    b'.isUnquoted (b.placeIn b' start) (b.placeIn b' stop) = b.isUnquoted start stop := by
  obtain ⟨hfirst, hlast⟩ := h
  have hstop : b'.before.size + (stop - b.before.size) ≤ b'.before.size + b.input.size := by omega
  simp only [isUnquoted, placeIn, hi, hfirst, hlast, hstop, Nat.le_add_right,
    Nat.add_sub_cancel_left]

end Buffer

/-! ## The test on addresses -/

/-- Whether a text lies in the input with no quote of it right in front, from their addresses of
some bits. There is no answer where a sum needs more bits or the input would be cut behind its
end. -/
def unquotedAt? (bits : Nat) (input : ByteArray) (place start size : Nat) : Option Bool :=
  if start < place then some false
  else
    let offset := start - place
    if 2 ^ bits ≤ offset + size then none
    else if input.size < offset + size then some false
    else if input.size < offset then none
    else some (!Resolve.quoteBefore input offset)

/-- Wherever a text lies, there is an answer. -/
theorem isSome_unquotedAt? {bits place start size : Nat} {input : ByteArray} (hp : 0 < place)
    (hs : start + size ≤ 2 ^ bits) : (unquotedAt? bits input place start size).isSome = true := by
  unfold unquotedAt?
  split
  · rfl
  · have hfits : ¬2 ^ bits ≤ start - place + size := by omega
    simp only [hfits, if_false]
    split
    · rfl
    · have hcut : ¬input.size < start - place := by omega
      simp only [hcut, if_false, Option.isSome_some]

/-- For a text in the buffer it is the answer of the test on places, whatever the buffer's own
address is. -/
theorem unquotedAt?_eq {b : Buffer} {bits address start stop : Nat} (ha : 0 < address)
    (hfits : address + b.bytes.size ≤ 2 ^ bits)
    (horder : start ≤ stop) (hstop : stop ≤ b.bytes.size) :
    unquotedAt? bits b.input (address + b.before.size) (address + start) (stop - start) =
      some (b.isUnquoted start stop) := by
  have hoffset : address + start - (address + b.before.size) = start - b.before.size := by omega
  unfold unquotedAt? Buffer.isUnquoted
  by_cases hfirst : b.before.size ≤ start
  · have hnot : ¬address + start < address + b.before.size := by omega
    have hfits' : ¬2 ^ bits ≤ start - b.before.size + (stop - start) := by omega
    simp only [hoffset, hnot, hfits', hfirst, if_false, decide_true, Bool.true_and]
    by_cases hlast : stop ≤ b.before.size + b.input.size
    · have hin : ¬b.input.size < start - b.before.size + (stop - start) := by omega
      have hcut : ¬b.input.size < start - b.before.size := by omega
      simp [hin, hcut, hlast]
    · have hout : b.input.size < start - b.before.size + (stop - start) := by omega
      simp [hout, hlast]
  · have hlt : address + start < address + b.before.size := by omega
    simp [hlt, hfirst]

/-! ## Values and their trees -/

namespace Handed

mutual

/-- The values within a value, itself first, in the order in which they are met: a key before its
value. -/
def met : Handed → List Handed
  | just value => just value :: met value
  | seq items => seq items :: metItems items
  | map entries => map entries :: metEntries entries
  | h => [h]

def metItems : List Handed → List Handed
  | [] => []
  | h :: hs => met h ++ metItems hs

def metEntries : List (Handed × Handed) → List Handed
  | [] => []
  | (k, v) :: es => met k ++ (met v ++ metEntries es)

end

/-- What is refused. -/
def refusal? : Handed → Option Refused
  | refused what => some what
  | _ => none

mutual

/-- A value whose lent texts have been moved to other places. -/
def moved (place : Nat → Nat) : Handed → Handed
  | lent start stop => lent (place start) (place stop)
  | just value => just (moved place value)
  | seq items => seq (movedItems place items)
  | map entries => map (movedEntries place entries)
  | h => h

def movedItems (place : Nat → Nat) : List Handed → List Handed
  | [] => []
  | h :: hs => moved place h :: movedItems place hs

def movedEntries (place : Nat → Nat) : List (Handed × Handed) → List (Handed × Handed)
  | [] => []
  | (k, v) :: es => (moved place k, moved place v) :: movedEntries place es

end

/-- The booleans and numbers that come from a single value. A lent text is one only in the input and
without a quote in front. -/
inductive Gives (b : Buffer) : Handed → Tree → Prop where
  | bool (value : Bool) : Gives b (.bool value) (.bool value)
  | int (value : Int) : Gives b (.int value) (.int value)
  | wide (value : Int) : Gives b (.wide value) (.float (.ofInt value))
  | float (value : Double) : Gives b (.float value) (.float value)
  | word {start stop : Nat} {t : Tree} (hp : b.IsPlain start stop)
      (hw : Words.Says (b.slice start stop) t) : Gives b (.lent start stop) t

mutual

/-- What becomes of a value. -/
inductive Becomes (b : Buffer) : Handed → Tree → Prop where
  | given {c : Handed} {t : Tree} (h : Gives b c t) : Becomes b c t
  | lent {start stop : Nat} (h : ∀ t, ¬Gives b (.lent start stop) t) :
      Becomes b (.lent start stop) (.str (b.slice start stop))
  | owned (text : String) : Becomes b (.owned text) (.str text)
  | nothing : Becomes b .nothing .null
  | just {h : Handed} {t : Tree} (ht : Becomes b h t) : Becomes b (.just h) t
  | seq {items : List Handed} {ts : List Tree} (h : BecomesItems b items ts) :
      Becomes b (.seq items) (.seq ts)
  | map {entries : List (Handed × Handed)} {pairs : Entries} (h : BecomesEntries b entries pairs) :
      Becomes b (.map entries) (.map (Entries.ofList pairs))

inductive BecomesItems (b : Buffer) : List Handed → List Tree → Prop where
  | nil : BecomesItems b [] []
  | cons {h : Handed} {hs : List Handed} {t : Tree} {ts : List Tree} (ht : Becomes b h t)
      (hts : BecomesItems b hs ts) : BecomesItems b (h :: hs) (t :: ts)

inductive BecomesEntries (b : Buffer) : List (Handed × Handed) → Entries → Prop where
  | nil : BecomesEntries b [] []
  | cons {h h' : Handed} {hs : List (Handed × Handed)} {k v : Tree} {es : Entries}
      (hk : Becomes b h k) (hv : Becomes b h' v)
      (hes : BecomesEntries b hs es) : BecomesEntries b ((h, h') :: hs) ((k, v) :: es)

end

/-! ## The tree of a value -/

section Tree

variable {b b' : Buffer}

theorem lentText_becomes (start stop : Nat) :
    Becomes b (.lent start stop) (lentText b start stop) := by
  unfold lentText
  split
  · rename_i hu
    have hp := Buffer.isUnquoted_iff.mp hu
    by_cases hr : Words.read (b.slice start stop) = .str (b.slice start stop)
    · rw [hr]
      refine .lent fun t ht => ?_
      cases ht with
      | word _ hw =>
          rw [hw.read_eq] at hr
          rw [hr] at hw
          cases hw
    · exact .given (.word hp (.of_read hr))
  · rename_i hu
    refine .lent fun t ht => ?_
    cases ht with
    | word hp _ => exact hu (Buffer.isUnquoted_iff.mpr hp)

theorem lentText_eq {start stop : Nat} {t : Tree} (h : Becomes b (.lent start stop) t) :
    lentText b start stop = t := by
  unfold lentText
  cases h with
  | given hg =>
      cases hg with
      | word hp hw => rw [Buffer.isUnquoted_iff.mpr hp, if_pos rfl, hw.read_eq]
  | lent hn =>
      split
      · rename_i hu
        by_contra hr
        exact hn _ (.word (Buffer.isUnquoted_iff.mp hu) (.of_read hr))
      · rfl

mutual

theorem becomes_of_tree : (h : Handed) → {t : BootConfig.Tree} → tree b h = .ok t → Becomes b h t
  | .lent start stop, _, ht => by cases ht; exact lentText_becomes start stop
  | .owned text, _, ht => by cases ht; exact .owned text
  | .bool value, _, ht => by cases ht; exact .given (.bool value)
  | .int value, _, ht => by cases ht; exact .given (.int value)
  | .wide value, _, ht => by cases ht; exact .given (.wide value)
  | .float value, _, ht => by cases ht; exact .given (.float value)
  | .nothing, _, ht => by cases ht; exact .nothing
  | .just value, _, ht => .just (becomes_of_tree value ht)
  | .seq items, _, ht => by
      obtain ⟨ts, hts, ht⟩ := Steps.ok_of_then ht
      cases ht
      exact .seq (becomes_of_trees items hts)
  | .map entries, _, ht => by
      obtain ⟨es, hes, ht⟩ := Steps.ok_of_then ht
      cases ht
      obtain ⟨pairs, hpairs, rfl⟩ := becomes_of_addEntries entries hes
      exact .map hpairs
  | .refused _, _, ht => by cases ht

theorem becomes_of_trees : (hs : List Handed) → {ts : List BootConfig.Tree} → trees b hs = .ok ts →
    BecomesItems b hs ts
  | [], _, hts => by cases hts; exact .nil
  | h :: hs, _, hall => by
      obtain ⟨t, ht, hrest⟩ := Steps.ok_of_then hall
      obtain ⟨ts, hts, hr⟩ := Steps.ok_of_then hrest
      cases hr
      exact .cons (becomes_of_tree h ht) (becomes_of_trees hs hts)

theorem becomes_of_addEntries : (hs : List (Handed × Handed)) → {acc es : Entries} →
    addEntries b hs acc = .ok es →
    ∃ pairs, BecomesEntries b hs pairs ∧ es = pairs.foldl (fun acc e => acc.put e.1 e.2) acc
  | [], _, _, hes => by cases hes; exact ⟨[], .nil, rfl⟩
  | (h, h') :: hs, _, _, hes => by
      obtain ⟨k, hk, hes⟩ := Steps.ok_of_then hes
      obtain ⟨v, hv, hes⟩ := Steps.ok_of_then hes
      obtain ⟨pairs, hpairs, hr⟩ := becomes_of_addEntries hs hes
      exact ⟨(k, v) :: pairs, .cons (becomes_of_tree h hk) (becomes_of_tree h' hv) hpairs, hr⟩

end

mutual

theorem Becomes.tree_eq {h : Handed} {t : BootConfig.Tree} (ht : Becomes b h t) :
    tree b h = .ok t := by
  match ht with
  | .given (.bool _) | .given (.int _) | .given (.wide _) | .given (.float _) => rfl
  | .given (.word hp hw) => exact congrArg Except.ok (lentText_eq (.given (.word hp hw)))
  | .lent hn => exact congrArg Except.ok (lentText_eq (.lent hn))
  | .owned _ | .nothing => rfl
  | .just ht => rw [tree, Becomes.tree_eq ht]
  | .seq hts => rw [tree, BecomesItems.trees_eq hts]; rfl
  | .map hes => rw [tree, BecomesEntries.addEntries_eq hes]; rfl

theorem BecomesItems.trees_eq {hs : List Handed} {ts : List BootConfig.Tree}
    (h : BecomesItems b hs ts) : trees b hs = .ok ts := by
  match h with
  | .nil => rfl
  | .cons ht hts => rw [trees, Becomes.tree_eq ht, BecomesItems.trees_eq hts]; rfl

theorem BecomesEntries.addEntries_eq {hs : List (Handed × Handed)} {pairs : Entries}
    (h : BecomesEntries b hs pairs) {acc : Entries} :
    addEntries b hs acc = .ok (pairs.foldl (fun acc e => acc.put e.1 e.2) acc) := by
  match h with
  | .nil => rfl
  | .cons hk hv hes =>
      rw [addEntries, Becomes.tree_eq hk, Becomes.tree_eq hv]
      exact BecomesEntries.addEntries_eq hes

end

/-! ## Refused values -/

/-- A result is a fault exactly if one of some values is refused, and then the first of them is the
fault. -/
def Refuses {α : Type} (x : Except Fault α) (hs : List Handed) : Prop :=
  ∀ fault, x = .error fault ↔ ∃ what, hs.findSome? refusal? = some what ∧ fault = .refused what

section Steps

variable {α β : Type} {x : Except Fault α} {hs hs' : List Handed}

theorem Refuses.ok {a : α} (h : hs.findSome? refusal? = none) : Refuses (.ok a) hs := by
  intro fault
  simp [h]

theorem Refuses.then {f : α → Except Fault β} (hx : Refuses x hs) (hf : ∀ a, Refuses (f a) hs') :
    Refuses (x >>= f) (hs ++ hs') := by
  intro fault
  rw [List.findSome?_append]
  cases x with
  | error fault' =>
      obtain ⟨what, hwhat, rfl⟩ := (hx fault').mp rfl
      rw [hwhat]
      change Except.error _ = Except.error fault ↔ _
      simp [eq_comm]
  | ok a =>
      have hnone : hs.findSome? refusal? = none := by
        by_contra hsome
        obtain ⟨what, hwhat⟩ := Option.ne_none_iff_exists'.mp hsome
        cases (hx _).mpr ⟨what, hwhat, rfl⟩
      rw [hnone]
      exact hf a fault

theorem Refuses.cons {h : Handed} (hx : Refuses x hs) (hh : refusal? h = none) :
    Refuses x (h :: hs) := by
  intro fault
  rw [List.findSome?_cons, hh]
  exact hx fault

/-- A last step that cannot fail. -/
theorem Refuses.map {f : α → β} (hx : Refuses x hs) : Refuses (x >>= fun a => .ok (f a)) hs := by
  rw [← List.append_nil hs]
  exact hx.then fun a => .ok rfl

end Steps

mutual

theorem refuses_tree : (h : Handed) → Refuses (tree b h) h.met
  | .lent _ _ | .owned _ | .bool _ | .int _ | .wide _ | .float _ | .nothing => .ok rfl
  | .just value => (refuses_tree value).cons rfl
  | .seq items => (refuses_trees items).map.cons rfl
  | .map entries => (refuses_addEntries entries []).map.cons rfl
  | .refused what => fun fault => by simp [tree, met, refusal?, eq_comm]

theorem refuses_trees : (hs : List Handed) → Refuses (trees b hs) (metItems hs)
  | [] => .ok rfl
  | h :: hs => (refuses_tree h).then fun _ => (refuses_trees hs).map

theorem refuses_addEntries : (hs : List (Handed × Handed)) → (acc : Entries) →
    Refuses (addEntries b hs acc) (metEntries hs)
  | [], _ => .ok rfl
  | (k, v) :: hs, _ => (refuses_tree k).then fun _ =>
      (refuses_tree v).then fun _ => refuses_addEntries hs _

end

/-! ## Where booleans and numbers come from -/

theorem mem_met_self : (h : Handed) → h ∈ h.met
  | .lent _ _ | .owned _ | .bool _ | .int _ | .wide _ | .float _ | .nothing | .just _ | .seq _
  | .map _ | .refused _ => List.mem_cons_self

theorem Gives.has_eq {c : Handed} {t n : BootConfig.Tree} (h : Gives b c t) (hn : t.Has n) :
    n = t := by
  cases h with
  | bool | int | wide | float => cases hn; rfl
  | word _ hw => cases hw <;> cases hn <;> rfl

mutual

theorem Becomes.origin {h : Handed} {t n : BootConfig.Tree} (ht : Becomes b h t) (hn : t.Has n)
    (htyped : n.IsTyped) : ∃ c ∈ h.met, Gives b c n := by
  match ht with
  | .given hg => exact ⟨_, mem_met_self _, hg.has_eq hn ▸ hg⟩
  | .lent _ | .owned _ | .nothing => cases hn; cases htyped
  | .just ht =>
      obtain ⟨c, hc, hg⟩ := Becomes.origin ht hn htyped
      exact ⟨c, List.mem_cons_of_mem _ hc, hg⟩
  | .seq hts =>
      cases hn with
      | self => cases htyped
      | item hm hn =>
          obtain ⟨c, hc, hg⟩ := BecomesItems.origin hts hm hn htyped
          exact ⟨c, List.mem_cons_of_mem _ hc, hg⟩
  | .map hes =>
      cases hn with
      | self => cases htyped
      | key hm hn =>
          obtain ⟨⟨p, hp, hkey⟩, _⟩ := Entries.mem_ofList hm
          obtain ⟨c, hc, hg⟩ := BecomesEntries.origin hes hp (Or.inl (hkey ▸ hn)) htyped
          exact ⟨c, List.mem_cons_of_mem _ hc, hg⟩
      | value hm hn =>
          obtain ⟨_, p, hp, hvalue⟩ := Entries.mem_ofList hm
          obtain ⟨c, hc, hg⟩ := BecomesEntries.origin hes hp (Or.inr (hvalue ▸ hn)) htyped
          exact ⟨c, List.mem_cons_of_mem _ hc, hg⟩

theorem BecomesItems.origin {hs : List Handed} {ts : List BootConfig.Tree} {t n : BootConfig.Tree}
    (h : BecomesItems b hs ts)
    (hm : t ∈ ts) (hn : t.Has n) (htyped : n.IsTyped) : ∃ c ∈ metItems hs, Gives b c n := by
  match h with
  | .cons ht hts =>
      rcases List.mem_cons.mp hm with rfl | hm
      · obtain ⟨c, hc, hg⟩ := Becomes.origin ht hn htyped
        exact ⟨c, List.mem_append_left _ hc, hg⟩
      · obtain ⟨c, hc, hg⟩ := BecomesItems.origin hts hm hn htyped
        exact ⟨c, List.mem_append_right _ hc, hg⟩

theorem BecomesEntries.origin {hs : List (Handed × Handed)} {pairs : Entries}
    {p : BootConfig.Tree × BootConfig.Tree} {n : BootConfig.Tree} (h : BecomesEntries b hs pairs)
    (hm : p ∈ pairs) (hn : p.1.Has n ∨ p.2.Has n) (htyped : n.IsTyped) :
    ∃ c ∈ metEntries hs, Gives b c n := by
  match h with
  | .cons hk hv hes =>
      rcases List.mem_cons.mp hm with rfl | hm
      · rcases hn with hn | hn
        · obtain ⟨c, hc, hg⟩ := Becomes.origin hk hn htyped
          exact ⟨c, List.mem_append_left _ hc, hg⟩
        · obtain ⟨c, hc, hg⟩ := Becomes.origin hv hn htyped
          exact ⟨c, List.mem_append_right _ (List.mem_append_left _ hc), hg⟩
      · obtain ⟨c, hc, hg⟩ := BecomesEntries.origin hes hm hn htyped
        exact ⟨c, List.mem_append_right _ (List.mem_append_right _ hc), hg⟩

end

/-! ## What surrounds the input -/

variable {b' : Buffer}

theorem lentText_moved (hi : b'.input = b.input) {start stop : Nat} (h : b.Inside start stop) :
    lentText b' (b.placeIn b' start) (b.placeIn b' stop) = lentText b start stop := by
  simp only [lentText, h.isUnquoted_moved hi, h.slice_moved hi]

mutual

theorem tree_moved (hi : b'.input = b.input) : (h : Handed) →
    (∀ start stop, .lent start stop ∈ h.met → b.Inside start stop) →
    tree b' (h.moved (b.placeIn b')) = tree b h
  | .lent start stop, h => congrArg Except.ok (lentText_moved hi (h start stop List.mem_cons_self))
  | .owned _, _ | .bool _, _ | .int _, _ | .wide _, _ | .float _, _ | .nothing, _ | .refused _, _ =>
      rfl
  | .just value, h => tree_moved hi value fun _ _ hm => h _ _ (List.mem_cons_of_mem _ hm)
  | .seq items, h => by
      rw [moved, tree, tree, trees_moved hi items fun _ _ hm => h _ _ (List.mem_cons_of_mem _ hm)]
  | .map entries, h => by
      rw [moved, tree, tree, addEntries_moved hi entries fun _ _ hm =>
        h _ _ (List.mem_cons_of_mem _ hm)]

theorem trees_moved (hi : b'.input = b.input) : (hs : List Handed) →
    (∀ start stop, .lent start stop ∈ metItems hs → b.Inside start stop) →
    trees b' (movedItems (b.placeIn b') hs) = trees b hs
  | [], _ => rfl
  | h :: hs, hall => by
      rw [movedItems, trees, trees, tree_moved hi h fun _ _ hm =>
        hall _ _ (List.mem_append_left _ hm), trees_moved hi hs fun _ _ hm =>
          hall _ _ (List.mem_append_right _ hm)]

theorem addEntries_moved (hi : b'.input = b.input) : (hs : List (Handed × Handed)) →
    (∀ start stop, .lent start stop ∈ metEntries hs → b.Inside start stop) → (acc : Entries) →
    addEntries b' (movedEntries (b.placeIn b') hs) acc = addEntries b hs acc
  | [], _, _ => rfl
  | (k, v) :: hs, hall, _ => by
      have hrest :=
        addEntries_moved hi hs fun _ _ hm =>
          hall _ _ (List.mem_append_right _ (List.mem_append_right _ hm))
      rw [movedEntries, addEntries, addEntries, tree_moved hi k fun _ _ hm =>
        hall _ _ (List.mem_append_left _ hm), tree_moved hi v fun _ _ hm =>
          hall _ _ (List.mem_append_right _ (List.mem_append_left _ hm))]
      simp only [hrest]

end

/-! ## What is answered -/

/-- What is answered to values that are handed over: their tree, or the first refused value.
Booleans and numbers come from values of their kind or from plain words of the input, and nothing of
this depends on what surrounds the input or on where all of it lies. -/
structure Answered (b : Buffer) (h : Handed) : Prop where
  tree_iff : ∀ t, tree b h = .ok t ↔ Becomes b h t
  origin : ∀ t, tree b h = .ok t → ∀ n, t.Has n → n.IsTyped → ∃ c ∈ h.met, Gives b c n
  error_iff : ∀ fault, tree b h = .error fault ↔
    ∃ what, h.met.findSome? refusal? = some what ∧ fault = .refused what
  moved : ∀ b' : Buffer, b'.input = b.input →
    (∀ start stop, .lent start stop ∈ h.met → b.Inside start stop) →
    tree b' (h.moved (b.placeIn b')) = tree b h
  settled : ∀ bits place start size, 0 < place → start + size ≤ 2 ^ bits →
    (unquotedAt? bits b.input place start size).isSome = true
  placed : ∀ bits address start stop, 0 < address → address + b.bytes.size ≤ 2 ^ bits →
    start ≤ stop → stop ≤ b.bytes.size →
    unquotedAt? bits b.input (address + b.before.size) (address + start) (stop - start) =
    some (b.isUnquoted start stop)
  text : ∀ start stop (text : String), b.bytes.extract start stop = text.toUTF8 →
    b.slice start stop = text

/-- Values of every nesting are answered so, in every buffer. -/
theorem answered (b : Buffer) (h : Handed) : Answered b h where
  tree_iff _ := ⟨becomes_of_tree h, Becomes.tree_eq⟩
  origin _ ht _ hn htyped := (becomes_of_tree h ht).origin hn htyped
  error_iff := refuses_tree h
  moved _ hi hinside := tree_moved hi h hinside
  settled _ _ _ _ := isSome_unquotedAt?
  placed _ _ _ _ := unquotedAt?_eq
  text _ _ _ := Buffer.slice_eq

/-- A quote in front of the input makes no difference, one within it does. -/
example : (tree ⟨"'".toUTF8, "yes'no".toUTF8, .empty⟩ (.seq [.lent 1 4, .lent 5 7])).toOption.any
    (·.same (.seq [.bool true, .str "no"])) = true := by decide +kernel

end Tree

end Handed

end Yaml

end BootConfig
