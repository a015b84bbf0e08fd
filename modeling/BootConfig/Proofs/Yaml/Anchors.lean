import BootConfig.Proofs.Yaml.Whole
import Mathlib.Data.List.Induction

/-!
# What anchors stand for

An anchor with a new name stands for its node. One whose name is given again loses its number to the
next anchor with a new name, or else to the last anchor of all.
-/

namespace BootConfig.Yaml

/-! ## Names by position -/

namespace Names

variable {names : List (Option String)} {n : Option String} {name name' : String}
  {p q position : Nat}

/-- A name is given at a position. -/
def GivenAt (names : List (Option String)) (name : String) (p : Nat) : Prop :=
  names[p]? = some (some name)

/-- A name is given at a position and nowhere in front of it. -/
structure IsNew (names : List (Option String)) (name : String) (p : Nat) : Prop where
  given : GivenAt names name p
  first : ∀ q < p, ¬GivenAt names name q

/-- The last of the positions of a name that are in front of one. -/
structure IsLatest (names : List (Option String)) (position : Nat) (name : String) (p : Nat) :
    Prop where
  given : GivenAt names name p
  before : p < position
  last : ∀ q, p < q → q < position → ¬GivenAt names name q

/-- The position that the name at a position keeps in the end: its own if the name is new, otherwise
the next one of a new name, and the last one of all where no new name comes. -/
inductive Keeps (names : List (Option String)) (p : Nat) : Nat → Prop where
  | new {name : String} (h : IsNew names name p) : Keeps names p p
  | next {name name' : String} {q : Nat} (h : GivenAt names name p) (hagain : ¬IsNew names name p)
      (hlt : p < q) (hnew : IsNew names name' q)
      (hnone : ∀ r name, p < r → r < q → ¬IsNew names name r) : Keeps names p q
  | last {name name' : String} {q : Nat} (h : GivenAt names name p) (hagain : ¬IsNew names name p)
      (hle : p ≤ q) (hq : GivenAt names name' q) (hnone : ∀ r name, p < r → ¬IsNew names name r)
      (hlast : ∀ r name, q < r → ¬GivenAt names name r) : Keeps names p q

theorem GivenAt.lt (h : GivenAt names name p) : p < names.length :=
  (List.getElem?_eq_some_iff.mp h).1

theorem GivenAt.unique (h : GivenAt names name p) (h' : GivenAt names name' p) : name = name' :=
  Option.some.inj (Option.some.inj (h.symm.trans h'))

theorem IsLatest.unique (h : IsLatest names position name p) (h' : IsLatest names position name q) :
    p = q := by
  rcases Nat.lt_trichotomy p q with hlt | heq | hgt
  · exact absurd h'.given (h.last q hlt h'.before)
  · exact heq
  · exact absurd h.given (h'.last p hgt h.before)

theorem Keeps.lt (h : Keeps names p q) : q < names.length := by
  cases h with
  | new h => exact h.given.lt
  | next _ _ _ hnew _ => exact hnew.given.lt
  | last _ _ _ hq _ _ => exact hq.lt

/-- A name keeps its own position just if it is new or no other name stands behind it. -/
theorem Keeps.self_iff (h : Keeps names p q) (hp : GivenAt names name p) :
    q = p ↔ IsNew names name p ∨ ∀ r name, p < r → ¬GivenAt names name r := by
  cases h with
  | new h =>
      obtain rfl := hp.unique h.given
      exact iff_of_true rfl (Or.inl h)
  | next h hagain hlt hnew _ =>
      obtain rfl := hp.unique h
      refine iff_of_false (Nat.ne_of_gt hlt) ?_
      rintro (h | h)
      · exact hagain h
      · exact h _ _ hlt hnew.given
  | last h hagain hle hq hnone hlast =>
      obtain rfl := hp.unique h
      constructor
      · rintro rfl
        exact Or.inr hlast
      · rintro (h | h)
        · exact absurd h hagain
        · exact Nat.le_antisymm (Nat.le_of_not_lt fun hlt => h _ _ hlt hq) hle

/-! ### One more name -/

theorem givenAt_concat :
    GivenAt (names ++ [n]) name p ↔ GivenAt names name p ∨ p = names.length ∧ n = some name := by
  unfold GivenAt
  rcases Nat.lt_trichotomy p names.length with hlt | rfl | hgt
  · rw [List.getElem?_append_left hlt]
    simp [Nat.ne_of_lt hlt]
  · simp
  · rw [List.getElem?_eq_none (by simpa using Nat.succ_le_of_lt hgt),
      List.getElem?_eq_none (Nat.le_of_lt hgt)]
    simp [Nat.ne_of_gt hgt]

theorem givenAt_concat_of_lt (h : p < names.length) :
    GivenAt (names ++ [n]) name p ↔ GivenAt names name p := by
  rw [givenAt_concat]
  simp [Nat.ne_of_lt h]

theorem GivenAt.le (h : GivenAt (names ++ [n]) name p) : p ≤ names.length := by
  have hlt := h.lt
  rw [List.length_append, List.length_singleton] at hlt
  exact Nat.le_of_lt_succ hlt

theorem givenAt_length : GivenAt (names ++ [n]) name names.length ↔ n = some name := by
  simp [GivenAt]

theorem isLatest_length (h : n = some name) :
    IsLatest (names ++ [n]) (names ++ [n]).length name names.length where
  given := givenAt_length.mpr h
  before := by simp
  last _ hlt _ hq := Nat.not_lt_of_le hq.le hlt

theorem IsLatest.concat (h : IsLatest names names.length name p) (hne : n ≠ some name) :
    IsLatest (names ++ [n]) (names ++ [n]).length name p where
  given := (givenAt_concat_of_lt h.before).mpr h.given
  before := Nat.lt_of_lt_of_le h.before (by simp)
  last q hlt _ hq := by
    have hq := (givenAt_concat.mp hq).resolve_right fun h => hne h.2
    exact h.last q hlt hq.lt hq

theorem isNew_concat_of_lt (h : p < names.length) :
    IsNew (names ++ [n]) name p ↔ IsNew names name p := by
  constructor
  · rintro ⟨hs, hf⟩
    exact ⟨(givenAt_concat_of_lt h).mp hs, fun q hq hsq =>
      hf q hq ((givenAt_concat_of_lt (Nat.lt_trans hq h)).mpr hsq)⟩
  · rintro ⟨hs, hf⟩
    exact ⟨(givenAt_concat_of_lt h).mpr hs, fun q hq hsq =>
      hf q hq ((givenAt_concat_of_lt (Nat.lt_trans hq h)).mp hsq)⟩

/-- From a position on there is a new name. -/
def Settled (names : List (Option String)) (p : Nat) : Prop := ∃ q name, p ≤ q ∧ IsNew names name q

/-- The name behind some others is none of them. -/
def BringsNew (names : List (Option String)) (n : Option String) : Prop :=
  ∃ name, n = some name ∧ ∀ q, ¬GivenAt names name q

theorem not_settled_length (names : List (Option String)) : ¬Settled names names.length :=
  fun ⟨_, _, hle, h⟩ => absurd h.given.lt (Nat.not_lt_of_le hle)

theorem isNew_length :
    IsNew (names ++ [n]) name names.length ↔ n = some name ∧ ∀ q, ¬GivenAt names name q := by
  constructor
  · rintro ⟨hs, hf⟩
    exact ⟨givenAt_length.mp hs, fun q hq => hf q hq.lt ((givenAt_concat_of_lt hq.lt).mpr hq)⟩
  · rintro ⟨rfl, hnone⟩
    exact ⟨givenAt_length.mpr rfl, fun q hlt hq => hnone q ((givenAt_concat_of_lt hlt).mp hq)⟩

theorem IsNew.concat (h : IsNew names name p) : IsNew (names ++ [n]) name p :=
  (isNew_concat_of_lt h.given.lt).mpr h

theorem isNew_concat :
    IsNew (names ++ [n]) name p ↔ IsNew names name p ∨ p = names.length ∧ n = some name ∧
    ∀ q, ¬GivenAt names name q := by
  constructor
  · intro h
    rcases Nat.lt_or_ge p names.length with hlt | hge
    · exact Or.inl ((isNew_concat_of_lt hlt).mp h)
    · obtain rfl : p = names.length := Nat.le_antisymm h.given.le hge
      exact Or.inr ⟨rfl, isNew_length.mp h⟩
  · rintro (h | ⟨rfl, h⟩)
    · exact h.concat
    · exact isNew_length.mpr h

theorem settled_concat (hp : p ≤ names.length) :
    Settled (names ++ [n]) p ↔ Settled names p ∨ BringsNew names n := by
  constructor
  · rintro ⟨q, name, hle, h⟩
    rcases isNew_concat.mp h with h | ⟨_, h⟩
    · exact Or.inl ⟨q, name, hle, h⟩
    · exact Or.inr ⟨name, h⟩
  · rintro (⟨q, name, hle, h⟩ | ⟨name, h⟩)
    · exact ⟨q, name, hle, h.concat⟩
    · exact ⟨_, name, hp, isNew_length.mpr h⟩

/-- Once its number is given away, a name's position is not changed any more. -/
theorem Keeps.concat_of_settled (h : Keeps names p q) (hs : Settled names p) :
    Keeps (names ++ [n]) p q := by
  cases h with
  | new h => exact .new h.concat
  | next h hagain hlt hnew hnone =>
      have hp := h.lt
      refine .next ((givenAt_concat_of_lt hp).mpr h) (mt (isNew_concat_of_lt hp).mp hagain) hlt
        hnew.concat ?_
      exact fun r name hr hrq =>
        mt (isNew_concat_of_lt (Nat.lt_trans hrq hnew.given.lt)).mp (hnone r name hr hrq)
  | last h hagain _ _ hnone _ =>
      obtain ⟨r, name, hr, hnew⟩ := hs
      rcases Nat.lt_or_eq_of_le hr with hr | rfl
      · exact absurd hnew (hnone r name hr)
      · exact absurd (h.unique hnew.given ▸ hnew) hagain

theorem Keeps.concat_none (h : Keeps names p q) : Keeps (names ++ [none]) p q := by
  by_cases hs : Settled names p
  · exact h.concat_of_settled hs
  · cases h with
    | new h => exact absurd ⟨p, _, Nat.le_refl p, h⟩ hs
    | next h _ hlt hnew _ => exact absurd ⟨q, _, Nat.le_of_lt hlt, hnew⟩ hs
    | last h hagain hle hq hnone hlast =>
        have hp := h.lt
        refine .last ((givenAt_concat_of_lt hp).mpr h) (mt (isNew_concat_of_lt hp).mp hagain) hle
          ((givenAt_concat_of_lt hq.lt).mpr hq) ?_ ?_
        · intro r name hr hnew
          exact hnone r name hr ((isNew_concat.mp hnew).resolve_right fun h => by cases h.2.1)
        · intro r name hr hgiven
          exact hlast r name hr ((givenAt_concat.mp hgiven).resolve_right fun h => by cases h.2)

/-- As long as its number is not given away, the last name has it. -/
theorem Keeps.concat_some (h : GivenAt (names ++ [some name']) name p) (hs : ¬Settled names p) :
    Keeps (names ++ [some name']) p names.length := by
  have hlen : GivenAt (names ++ [some name']) name' names.length := givenAt_length.mpr rfl
  have hlast : ∀ r name, names.length < r → ¬GivenAt (names ++ [some name']) name r :=
    fun _ _ hr hgiven =>
    Nat.not_lt_of_le hgiven.le hr
  have hbefore : ∀ r name, p ≤ r → IsNew (names ++ [some name']) name r → r = names.length :=
    fun r name hr hnew =>
    ((isNew_concat.mp hnew).resolve_left fun h => hs ⟨r, name, hr, h⟩).1
  by_cases hnew : IsNew (names ++ [some name']) name' names.length
  · rcases Nat.lt_or_eq_of_le h.le with hlt | rfl
    · refine .next h (fun h => ?_) hlt hnew fun r name hr hrq hnew => ?_
      · exact Nat.ne_of_lt hlt (hbefore p _ (Nat.le_refl p) h)
      · exact Nat.ne_of_lt hrq (hbefore r _ (Nat.le_of_lt hr) hnew)
    · exact .new hnew
  · have hnone : ∀ r name, p ≤ r → ¬IsNew (names ++ [some name']) name r := by
      intro r name hr hn
      obtain rfl := hbefore r name hr hn
      exact hnew (hlen.unique hn.given ▸ hn)
    exact .last h (hnone p _ (Nat.le_refl p)) h.le hlen (fun r name hr =>
      hnone r name (Nat.le_of_lt hr)) hlast

end Names

/-! ## Anchors -/

namespace Document.Anchors

open Names

variable {a : Anchors} {names : List (Option String)} {n : Option String} {name name' : String}
  {number p q position : Nat}

/-- The anchors that some names make, each at its position. -/
def ofNames (names : List (Option String)) : Anchors :=
  names.zipIdx.foldl (fun a n => a.defineAny n.1 n.2) .empty

theorem ofNames_concat (names : List (Option String)) (n : Option String) :
    ofNames (names ++ [n]) = (ofNames names).defineAny n names.length := by
  simp [ofNames, List.zipIdx_append]

/-- The number that the name at a position takes. -/
def numberAt (names : List (Option String)) (p : Nat) : Nat :=
  (ofNames (names.take p)).numbers.length

theorem numberAt_concat (h : p ≤ names.length) : numberAt (names ++ [n]) p = numberAt names p := by
  rw [numberAt, numberAt, List.take_append_of_le_length h]

theorem numberAt_length (names : List (Option String)) :
    numberAt names names.length = (ofNames names).numbers.length := by
  rw [numberAt, List.take_length]

/-! ### One anchor -/

theorem find?_renumber (name name' : String) (number : Nat) : (numbers : List (String × Nat)) →
    ((renumber name number numbers).find? (·.1 = name')).map (·.2) =
      if name = name' then some number else (numbers.find? (·.1 = name')).map (·.2)
  | [] => by
      by_cases h : name = name' <;> simp [renumber, h]
  | e :: es => by
      unfold renumber
      by_cases he : e.1 = name
      · by_cases h : name = name' <;> simp [he, h]
      · have ih := find?_renumber name name' number es
        by_cases h : e.1 = name'
        · have hne : name ≠ name' := fun heq => he (h.trans heq.symm)
          rw [if_neg he, if_neg hne, List.find?_cons_of_pos (by simpa using h),
            List.find?_cons_of_pos (by simpa using h)]
        · simpa [he, h] using ih

theorem number?_define :
    (a.define name p).number? name' = if name = name' then some a.numbers.length
    else a.number? name' :=
  find?_renumber name name' _ _

theorem length_renumber (name : String) (number : Nat) : (numbers : List (String × Nat)) →
    (renumber name number numbers).length = if numbers.any (·.1 = name) then numbers.length
      else numbers.length + 1
  | [] => rfl
  | e :: es => by
      unfold renumber
      by_cases he : e.1 = name
      · simp [he]
      · have ih := length_renumber name number es
        simp only [he, if_false, List.length_cons, ih, List.any_cons, decide_false, Bool.false_or]
        split <;> rfl

theorem isSome_number? : (a.number? name).isSome = a.numbers.any (·.1 = name) := by
  rw [number?, Option.isSome_map, List.isSome_find?]

theorem length_define :
    (a.define name p).numbers.length = if (a.number? name).isSome then a.numbers.length
      else a.numbers.length + 1 := by
  rw [isSome_number?]
  exact length_renumber _ _ _

/-- Every number that was given has a position. -/
def Placed (a : Anchors) : Prop := a.numbers.length ≤ a.positions.size

theorem Placed.define (h : a.Placed) : (a.define name p).Placed := by
  have hl : (a.define name p).numbers.length ≤ a.numbers.length + 1 := by
    rw [length_define]
    split <;> omega
  refine Nat.le_trans hl ?_
  unfold Anchors.define
  dsimp only
  split
  · rename_i hlt
    simpa using Nat.succ_le_of_lt hlt
  · rw [Array.size_push]
    exact Nat.succ_le_succ h

/-- A name is put at the position of its number, and no other position is changed. -/
theorem Placed.positions_define (h : a.Placed) :
    (a.define name p).positions[number]? = if number = a.numbers.length then some p
      else a.positions[number]? := by
  unfold Placed at h
  unfold Anchors.define
  dsimp only
  split
  · rename_i hlt
    rw [Array.set!_eq_setIfInBounds, Array.getElem?_setIfInBounds]
    by_cases hn : number = a.numbers.length
    · simp [hn, hlt]
    · simp [hn, Ne.symm hn]
  · have hsize : a.positions.size = a.numbers.length := by omega
    rw [Array.getElem?_push, hsize]

/-! ### All anchors -/

theorem placed (names : List (Option String)) : (ofNames names).Placed := by
  induction names using List.reverseRecOn with
  | nil => exact Nat.le_refl 0
  | append_singleton names n ih =>
      rw [ofNames_concat]
      cases n with
      | none => exact ih
      | some name => exact ih.define

theorem number?_concat :
    (ofNames (names ++ [n])).number? name =
      if n = some name then some (ofNames names).numbers.length
      else (ofNames names).number? name := by
  rw [ofNames_concat]
  cases n with
  | none => rfl
  | some name' => simpa [defineAny] using number?_define

/-- The names that have numbers are those that are given. -/
theorem isSome_number?_iff (names : List (Option String)) (name : String) :
    ((ofNames names).number? name).isSome = true ↔ ∃ p, GivenAt names name p := by
  induction names using List.reverseRecOn with
  | nil => exact iff_of_false Bool.false_ne_true fun ⟨_, h⟩ => absurd h.lt (Nat.not_lt_zero _)
  | append_singleton names n ih =>
      rw [number?_concat]
      split
      · rename_i heq
        exact iff_of_true rfl ⟨names.length, givenAt_length.mpr heq⟩
      · rename_i hne
        rw [ih]
        simp [givenAt_concat, hne]

/-- A name has the number that it took at the last of its positions. -/
theorem latest (names : List (Option String)) (h : (ofNames names).number? name = some number) :
    ∃ p, IsLatest names names.length name p ∧ numberAt names p = number := by
  induction names using List.reverseRecOn with
  | nil => cases h
  | append_singleton names n ih =>
      rw [number?_concat] at h
      split at h
      · rename_i heq
        cases h
        exact ⟨names.length, isLatest_length heq,
          by rw [numberAt_concat (Nat.le_refl _), numberAt_length]⟩
      · rename_i hne
        obtain ⟨p, hp, hnumber⟩ := ih h
        exact ⟨p, hp.concat hne, by rw [numberAt_concat (Nat.le_of_lt hp.before), hnumber]⟩

/-- A new name takes a number for itself. -/
theorem length_concat_of_new (h : BringsNew names n) :
    (ofNames (names ++ [n])).numbers.length = (ofNames names).numbers.length + 1 := by
  obtain ⟨name, rfl, hnone⟩ := h
  have hfresh : ¬((ofNames names).number? name).isSome = true := fun hs => by
    obtain ⟨q, hq⟩ := (isSome_number?_iff names name).mp hs
    exact hnone q hq
  rw [ofNames_concat]
  exact length_define.trans (if_neg hfresh)

theorem length_concat_of_not_new (h : ¬BringsNew names n) :
    (ofNames (names ++ [n])).numbers.length = (ofNames names).numbers.length := by
  rw [ofNames_concat]
  cases n with
  | none => rfl
  | some name =>
      have hgiven : ∃ q, GivenAt names name q := by
        by_contra hnone
        exact h ⟨name, rfl, not_exists.mp hnone⟩
      exact length_define.trans (if_pos ((isSome_number?_iff names name).mpr hgiven))

/-- The number of a position is in use until a new name comes. -/
theorem numberAt_eq_iff (names : List (Option String)) : ∀ p ≤ names.length,
    numberAt names p ≤ (ofNames names).numbers.length ∧
    (numberAt names p = (ofNames names).numbers.length ↔ ¬Settled names p) := by
  induction names using List.reverseRecOn with
  | nil =>
      rintro p ⟨⟩
      exact ⟨Nat.le_refl _, iff_of_true rfl (not_settled_length [])⟩
  | append_singleton names n ih =>
      intro p hp
      rcases Nat.lt_or_eq_of_le hp with hlt | rfl
      · have hle : p ≤ names.length := by
          rw [List.length_append, List.length_singleton] at hlt
          exact Nat.le_of_lt_succ hlt
        obtain ⟨hnumber, hiff⟩ := ih p hle
        rw [numberAt_concat hle, settled_concat hle]
        by_cases hn : BringsNew names n
        · rw [length_concat_of_new hn]
          exact ⟨Nat.le_succ_of_le hnumber,
            iff_of_false (Nat.ne_of_lt (Nat.lt_succ_of_le hnumber)) (not_not.mpr (Or.inr hn))⟩
        · rw [length_concat_of_not_new hn, or_iff_left hn]
          exact ⟨hnumber, hiff⟩
      · rw [numberAt_length]
        exact ⟨Nat.le_refl _, iff_of_true rfl (not_settled_length _)⟩

/-- The number that a name took at a position has the position that is kept for it. -/
theorem kept (names : List (Option String)) : ∀ {name : String} {p : Nat}, GivenAt names name p →
    ∃ q, Keeps names p q ∧ (ofNames names).positions[numberAt names p]? = some q := by
  induction names using List.reverseRecOn with
  | nil => exact fun h => absurd h.lt (Nat.not_lt_zero _)
  | append_singleton names n ih =>
      intro name p hp
      have hle := hp.le
      rw [numberAt_concat hle, ofNames_concat]
      cases n with
      | none =>
          obtain ⟨q, hk, hq⟩ := ih ((givenAt_concat.mp hp).resolve_right fun h => by cases h.2)
          exact ⟨q, hk.concat_none, hq⟩
      | some name' =>
          rw [defineAny, (placed names).positions_define]
          split
          · rename_i heq
            exact ⟨names.length, .concat_some hp (((numberAt_eq_iff names) p hle).2.mp heq), rfl⟩
          · rename_i hne
            have hs : Settled names p :=
              not_not.mp fun hs => hne ((numberAt_eq_iff names p hle).2.mpr hs)
            obtain ⟨q, hk, hq⟩ :=
              ih ((givenAt_concat.mp hp).resolve_right fun h => hne (by rw [h.1, numberAt_length]))
            exact ⟨q, hk.concat_of_settled hs, hq⟩

end Document.Anchors

/-! ## Documents -/

namespace Event

/-- The anchors of some events, by the positions of the events. -/
def anchors (es : List Event) : List (Option String) := es.map (·.kind.anchor?)

end Event

namespace Document

/-- The items kept of some events: an alias has the number that its name has there, and each number
has the items from its position on. -/
structure Tracked (es : List Event) (d : Document) : Prop where
  length : d.items.length = es.length
  aliases : ∀ position name start stop, es[position]? = some ⟨.aliasOf name, start, stop⟩ →
    ∃ number, d.items[position]? = some ⟨.aliasOf number, start⟩ ∧
      (Anchors.ofNames ((Event.anchors es).take position)).number? name = some number
  targets : ∀ (number q : Nat), (Anchors.ofNames (Event.anchors es)).positions[number]? = some q →
    q ≤ d.items.length → d.targets[number]? = some (d.items.drop q)

namespace Partial

variable {pre es : List Event} {e : Event} {p : Partial} {kind : Item.Kind}

structure Tracked (es : List Event) (p : Partial) : Prop where
  count : p.count = es.length
  length : p.items.length = es.length
  anchors : p.anchors = .ofNames (Event.anchors es)
  aliases : ∀ position name start stop, es[position]? = some ⟨.aliasOf name, start, stop⟩ →
    ∃ number, p.items.reverse[position]? = some ⟨.aliasOf number, start⟩ ∧
      (Anchors.ofNames ((Event.anchors es).take position)).number? name = some number

theorem Tracked.nil : Partial.empty.Tracked [] := ⟨rfl, rfl, rfl, fun _ _ _ _ h => by cases h⟩

theorem Tracked.add (h : p.Tracked es)
    (ha : ∀ name, e.kind = .aliasOf name →
      ∃ number, kind = .aliasOf number ∧ p.anchors.number? name = some number) :
    ((p.named e.kind.anchor?).add kind e.start).Tracked (es ++ [e]) where
  count := by simp [Partial.add, named, h.count]
  length := by simp [Partial.add, named, h.length]
  anchors := by
    have hlen : p.count = (Event.anchors es).length := by
      rw [h.count, Event.anchors, List.length_map]
    rw [Event.anchors, List.map_append, List.map_singleton, Anchors.ofNames_concat, Partial.add,
      named, ← Event.anchors, h.anchors, hlen]
  aliases position name start stop he := by
    have hlen : p.items.reverse.length = es.length := by rw [List.length_reverse, h.length]
    change ∃ number, (⟨kind, e.start⟩ :: p.items).reverse[position]? = _ ∧ _
    rw [List.reverse_cons, Event.anchors, List.map_append]
    rcases Nat.lt_trichotomy position es.length with hlt | rfl | hgt
    · rw [List.getElem?_append_left hlt] at he
      obtain ⟨number, hi, hn⟩ := h.aliases position name start stop he
      rw [List.getElem?_append_left (by omega),
        List.take_append_of_le_length (by rw [List.length_map]; omega)]
      exact ⟨number, hi, hn⟩
    · rw [List.getElem?_concat_length, Option.some.injEq] at he
      subst he
      obtain ⟨number, rfl, hn⟩ := ha name rfl
      rw [← hlen, List.getElem?_concat_length, hlen, List.take_append_of_le_length (by simp),
        List.take_of_length_le (by simp), ← Event.anchors, ← h.anchors]
      exact ⟨number, rfl, hn⟩
    · rw [List.getElem?_eq_none (by simp; omega)] at he
      cases he

theorem Tracked.finish (h : p.Tracked es) (broken : Option Break) (continued : Bool) :
    (p.finish broken continued).Tracked es where
  length := by rw [← h.length]; exact List.length_reverse
  aliases := h.aliases
  targets number q hq hle := by
    rw [← h.anchors] at hq
    have hsuffix : (suffixes p.items.reverse)[q]? = some (p.items.reverse.drop q) :=
      getElem?_suffixes hle
    simp only [Partial.finish, Array.getElem?_map, hq, Option.map_some, Array.getD_eq_getD_getElem?,
      List.getElem?_toArray, hsuffix, Option.getD_some]

/-- The items that are collected are those of the first events inside documents. -/
theorem collect_tracked (problem : Option Problem) : (es : List Event) → {pre : List Event} →
    {p : Partial} → p.Tracked pre → (∀ i ∈ (collect problem es p).items, i.kind ≠ .void) →
    ∃ kept, kept <+: Event.inner es ∧ (collect problem es p).Tracked (pre ++ kept)
  | [], pre, _, hp, _ => ⟨[], List.nil_prefix, by rw [List.append_nil]; exact hp.finish _ _⟩
  | e :: es, pre, p, hp, hv => by
      -- an event is passed over, adds an item, or ends the items
      have hstop : ∀ broken continued, ∃ kept, kept <+: Event.inner (e :: es) ∧
          (p.finish broken continued).Tracked (pre ++ kept) :=
        fun broken continued =>
          ⟨[], List.nil_prefix, by rw [List.append_nil]; exact hp.finish broken continued⟩
      have hskip : e.kind.isInner = false → (∀ i ∈ (collect problem es p).items, i.kind ≠ .void) →
          ∃ kept, kept <+: Event.inner (e :: es) ∧
            (collect problem es p).Tracked (pre ++ kept) := by
        intro hk hv
        rw [Event.inner, List.filter_cons_of_neg (by simp [hk])]
        exact collect_tracked problem es hp hv
      have hadd : ∀ (anchor : Option String) {kind : Item.Kind}, e.kind.isInner = true →
          e.kind.anchor? = anchor →
          (∀ name, e.kind = .aliasOf name →
            ∃ number, kind = .aliasOf number ∧ p.anchors.number? name = some number) →
          (∀ i ∈ (collect problem es ((p.named anchor).add kind e.start)).items, i.kind ≠ .void) →
          ∃ kept, kept <+: Event.inner (e :: es) ∧
            (collect problem es ((p.named anchor).add kind e.start)).Tracked (pre ++ kept) := by
        rintro _ kind hk rfl ha hv
        obtain ⟨kept, hkept, ht⟩ := collect_tracked problem es (hp.add ha) hv
        rw [Event.inner, List.filter_cons_of_pos (by exact hk)]
        exact ⟨e :: kept, (List.prefix_cons_inj e).mpr hkept, by rwa [List.append_assoc] at ht⟩
      rw [collect] at hv ⊢
      split at hv <;> rename_i hk <;> simp only [hk] at hskip hadd ⊢
      · exact hskip rfl hv
      · exact hskip rfl hv
      · split at hv
        · exact absurd rfl (hv ⟨.void, e.start⟩ (by simp [Partial.add, Partial.finish]))
        · rename_i hne
          rw [if_neg hne]
          exact hstop _ _
      · exact hstop _ _
      · split at hv
        · rename_i number hn
          refine hadd none rfl rfl (fun name hname => ?_) hv
          cases hname
          exact ⟨number, rfl, hn⟩
        · rename_i hn
          exact hstop _ _
      · exact hadd _ rfl rfl (by simp) hv
      · exact hadd _ rfl rfl (by simp) hv
      · exact hadd none rfl rfl (by simp) hv
      · exact hadd _ rfl rfl (by simp) hv
      · exact hadd none rfl rfl (by simp) hv

end Partial

/-- An alias among the items has the number of the latest anchor of its name, whose items are those
of the position that it keeps. -/
theorem Tracked.aliasOf {es : List Event} {d : Document} {position : Nat} {name : String}
    {start stop : Mark} (h : d.Tracked es)
    (ha : es[position]? = some ⟨.aliasOf name, start, stop⟩) :
    ∃ number p q, d.items[position]? = some ⟨.aliasOf number, start⟩ ∧
      Names.IsLatest (Event.anchors es) position name p ∧
      Names.Keeps (Event.anchors es) p q ∧ d.targets[number]? = some (d.items.drop q) := by
  obtain ⟨number, hi, hn⟩ := h.aliases position name start stop ha
  have hposition : position < (Event.anchors es).length := by
    rw [Event.anchors, List.length_map]
    exact (List.getElem?_eq_some_iff.mp ha).1
  have htake : ((Event.anchors es).take position).length = position :=
    List.length_take_of_le (Nat.le_of_lt hposition)
  obtain ⟨p, hp, hnumber⟩ := Anchors.latest _ hn
  rw [htake] at hp
  have hgiven : ∀ q < position, Names.GivenAt ((Event.anchors es).take position) name q ↔
      Names.GivenAt (Event.anchors es) name q := by
    intro q hq
    rw [Names.GivenAt, Names.GivenAt, List.getElem?_take_of_lt hq]
  have hlatest : Names.IsLatest (Event.anchors es) position name p :=
    ⟨(hgiven p hp.before).mp hp.given, hp.before, fun q hpq hq hgq =>
      hp.last q hpq hq ((hgiven q hq).mpr hgq)⟩
  rw [Anchors.numberAt, List.take_take, Nat.min_eq_left (Nat.le_of_lt hp.before)] at hnumber
  obtain ⟨q, hk, hq⟩ := Anchors.kept (Event.anchors es) hlatest.given
  have hlt := hk.lt
  rw [Event.anchors, List.length_map, ← h.length] at hlt
  exact ⟨number, p, q, hi, hlatest, hk, h.targets number q (hnumber ▸ hq) (Nat.le_of_lt hlt)⟩

end Document

end BootConfig.Yaml
