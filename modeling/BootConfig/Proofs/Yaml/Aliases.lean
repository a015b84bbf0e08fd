import BootConfig.Proofs.Yaml.Anchors
import Mathlib.Logic.Relator

/-!
# Aliases

What the items of a document say at a position does not depend on how they come to be read there. An
alias says what the node says whose position its anchor keeps.
-/

namespace BootConfig.Yaml

open Relator (RightUnique)

variable {d : Document} {leaf : Scalar → Tree → Prop}

/-! ## One tree at every position -/

mutual

theorem Denotes.unique (hleaf : RightUnique leaf) {items rest rest' : List Item} {t t' : Tree}
    (h : Denotes d leaf items t rest)
    (h' : Denotes d leaf items t' rest') : t = t' ∧ rest = rest' := by
  match h, h' with
  | .content h, .content h' => exact h.unique hleaf h'
  | .content h, .aliasOf _ => cases h
  | .aliasOf _, .content h' => cases h'
  | .aliasOf h, .aliasOf h' => exact ⟨(h.unique hleaf h').1, rfl⟩
termination_by structural h

theorem DenotesContent.unique (hleaf : RightUnique leaf) {items rest rest' : List Item}
    {t t' : Tree} (h : DenotesContent d leaf items t rest)
    (h' : DenotesContent d leaf items t' rest') : t = t' ∧ rest = rest' := by
  match h, h' with
  | .scalar h, .scalar h' =>
      obtain rfl := hleaf h h'
      exact ⟨rfl, rfl⟩
  | .sequence h, .sequence h' =>
      obtain ⟨rfl, rfl⟩ := h.unique hleaf h'
      exact ⟨rfl, rfl⟩
  | .mapping h, .mapping h' =>
      obtain ⟨rfl, rfl⟩ := h.unique hleaf h'
      exact ⟨rfl, rfl⟩
termination_by structural h

theorem DenotesElements.unique (hleaf : RightUnique leaf) {items rest rest' : List Item}
    {ts ts' : List Tree} (h : DenotesElements d leaf items ts rest)
    (h' : DenotesElements d leaf items ts' rest') : ts = ts' ∧ rest = rest' := by
  match h, h' with
  | .stop, .stop => exact ⟨rfl, rfl⟩
  | .stop, .element (.content h') _ => cases h'
  | .element (.content h) _, .stop => cases h
  | .element h hs, .element h' hs' =>
      obtain ⟨rfl, rfl⟩ := h.unique hleaf h'
      obtain ⟨rfl, rfl⟩ := hs.unique hleaf hs'
      exact ⟨rfl, rfl⟩
termination_by structural h

theorem DenotesEntries.unique (hleaf : RightUnique leaf) {items rest rest' : List Item}
    {es es' : Entries} (h : DenotesEntries d leaf items es rest)
    (h' : DenotesEntries d leaf items es' rest') : es = es' ∧ rest = rest' := by
  match h, h' with
  | .stop, .stop => exact ⟨rfl, rfl⟩
  | .stop, .entry (.content h') _ _ => cases h'
  | .entry (.content h) _ _, .stop => cases h
  | .entry hk hv hs, .entry hk' hv' hs' =>
      obtain ⟨rfl, rfl⟩ := hk.unique hleaf hk'
      obtain ⟨rfl, rfl⟩ := hv.unique hleaf hv'
      obtain ⟨rfl, rfl⟩ := hs.unique hleaf hs'
      exact ⟨rfl, rfl⟩
termination_by structural h

end

/-! ## A tree at every position -/

mutual

theorem Denotes.suffix {items rest : List Item} {t : Tree} (h : Denotes d leaf items t rest) :
    rest <:+ items := by
  match h with
  | .content h => exact h.suffix
  | .aliasOf _ => exact List.suffix_cons _ _

theorem DenotesContent.suffix {items rest : List Item} {t : Tree}
    (h : DenotesContent d leaf items t rest) : rest <:+ items := by
  match h with
  | .scalar _ => exact List.suffix_cons _ _
  | .sequence h => exact h.suffix.trans (List.suffix_cons _ _)
  | .mapping h => exact h.suffix.trans (List.suffix_cons _ _)

theorem DenotesElements.suffix {items rest : List Item} {ts : List Tree}
    (h : DenotesElements d leaf items ts rest) : rest <:+ items := by
  match h with
  | .stop => exact List.suffix_cons _ _
  | .element h hs => exact hs.suffix.trans h.suffix

theorem DenotesEntries.suffix {items rest : List Item} {es : Entries}
    (h : DenotesEntries d leaf items es rest) : rest <:+ items := by
  match h with
  | .stop => exact List.suffix_cons _ _
  | .entry hk hv hs => exact hs.suffix.trans (hv.suffix.trans hk.suffix)

end

/-- No end of a collection is in front. -/
def Begins (items : List Item) : Prop := ∀ i ∈ items.head?, ∀ a, i.kind.role ≠ .closes a

theorem not_begins {kind : Item.Kind} {mark : Mark} {rest : List Item} {a : Awaits}
    (h : kind.role = .closes a) : ¬Begins (⟨kind, mark⟩ :: rest) :=
  fun hb => hb _ rfl a h

theorem Denotes.begins {items rest : List Item} {t : Tree} (h : Denotes d leaf items t rest) :
    Begins items ∧ ∃ i behind, items = i :: behind ∧ i.kind ≠ .void := by
  have hbegins : ∀ {i : Item} {behind : List Item}, (∀ a, i.kind.role ≠ .closes a) →
      i.kind ≠ .void →
      Begins (i :: behind) ∧ ∃ j rest, i :: behind = j :: rest ∧ j.kind ≠ .void := by
    intro i behind hr hv
    refine ⟨?_, i, behind, rfl, hv⟩
    rintro _ ⟨⟩
    exact hr
  match h with
  | .aliasOf _ => exact hbegins (by simp [Item.Kind.role]) (by simp)
  | .content (.scalar _) => exact hbegins (by simp [Item.Kind.role]) (by simp)
  | .content (.sequence _) => exact hbegins (by simp [Item.Kind.role]) (by simp)
  | .content (.mapping _) => exact hbegins (by simp [Item.Kind.role]) (by simp)

/-- Items that are the last of some, and more than all but the first, are all of them. -/
theorem eq_of_suffix_cons {i : Item} {later rest : List Item} (hs : later <:+ i :: rest)
    (hl : rest.length < later.length) : later = i :: rest :=
  hs.eq_of_length_le hl

/-- Some of the last items begin within a node or behind it. -/
theorem Denotes.within_or_behind {items rest later : List Item} {t : Tree}
    (h : Denotes d leaf items t rest) (hs : later <:+ items) :
    rest.length < later.length ∨ later <:+ rest := by
  rcases Nat.lt_or_ge rest.length later.length with hlt | hge
  · exact Or.inl hlt
  · exact Or.inr (List.suffix_of_suffix_length_le hs h.suffix hge)

mutual

theorem Denotes.inside {items rest later : List Item} {t : Tree} (h : Denotes d leaf items t rest)
    (hs : later <:+ items) (hl : rest.length < later.length) (hb : Begins later) :
      ∃ u behind, Denotes d leaf later u behind := by
  match h with
  | .content h => exact h.inside hs hl hb
  | .aliasOf h =>
      rw [eq_of_suffix_cons hs hl]
      exact ⟨_, _, .aliasOf h⟩

theorem DenotesContent.inside {items rest later : List Item} {t : Tree}
    (h : DenotesContent d leaf items t rest) (hs : later <:+ items)
    (hl : rest.length < later.length) (hb : Begins later) :
    ∃ u behind, Denotes d leaf later u behind := by
  match h with
  | .scalar h =>
      rw [eq_of_suffix_cons hs hl]
      exact ⟨_, _, .content (.scalar h)⟩
  | .sequence h =>
      rcases List.suffix_cons_iff.mp hs with rfl | hs
      · exact ⟨_, _, .content (.sequence h)⟩
      · exact h.inside hs hl hb
  | .mapping h =>
      rcases List.suffix_cons_iff.mp hs with rfl | hs
      · exact ⟨_, _, .content (.mapping h)⟩
      · exact h.inside hs hl hb

theorem DenotesElements.inside {items rest later : List Item} {ts : List Tree}
    (h : DenotesElements d leaf items ts rest) (hs : later <:+ items)
    (hl : rest.length < later.length) (hb : Begins later) :
    ∃ u behind, Denotes d leaf later u behind := by
  match h with
  | .stop =>
      rw [eq_of_suffix_cons hs hl] at hb
      exact absurd hb (not_begins rfl)
  | .element h hrest =>
      rcases h.within_or_behind hs with hm | hs
      · exact h.inside hs hm hb
      · exact hrest.inside hs hl hb

theorem DenotesEntries.inside {items rest later : List Item} {es : Entries}
    (h : DenotesEntries d leaf items es rest) (hs : later <:+ items)
    (hl : rest.length < later.length) (hb : Begins later) :
    ∃ u behind, Denotes d leaf later u behind := by
  match h with
  | .stop =>
      rw [eq_of_suffix_cons hs hl] at hb
      exact absurd hb (not_begins rfl)
  | .entry hk hv hrest =>
      rcases hk.within_or_behind hs with hm | hs
      · exact hk.inside hs hm hb
      · rcases hv.within_or_behind hs with hm | hs
        · exact hv.inside hs hm hb
        · exact hrest.inside hs hl hb

end

/-! ## Readings -/

namespace Build

variable {s : Source}

theorem known_of_faithful (input : ByteArray) {events : List Event} {i : Item}
    (hd : d.Faithful events) (hi : i ∈ d.items) (hv : ∀ i ∈ d.items, i.kind ≠ .void) :
      Known ⟨input, d, d.items.length⟩ (fun c v => Resolve.scalar input c = .ok v) where
  leaves _ _ _ _ h := h
  targets := hd.targets
  ahead := by
    rcases hd.nest with hnil | ⟨mark, hvoid⟩ | ⟨as, hnest⟩
    · rw [hnil] at hi
      cases hi
    · exact absurd rfl (hv ⟨.void, mark⟩ (by rw [hvoid]; exact List.mem_singleton_self _))
    · exact ⟨List.suffix_refl _, as, hnest⟩
  size := Nat.le_refl _

/-- Whatever is read from some of the last items is what they say. -/
theorem Known.node_denotes (hs : Known s leaf) {later : List Item} {i : Item} {rest : List Item}
    (hl : later <:+ s.document.items) (hi : later = i :: rest) (hb : Begins later)
    (hv : i.kind ≠ .void) {depth jumps : Nat} {path : Path} {t : Tree} {p : Progress}
    (h : node s depth path ⟨later, jumps⟩ = .ok (t, p)) :
    ∃ behind, Denotes s.document leaf later t behind := by
  obtain ⟨as, ha⟩ := hs.ahead.of_suffix hl
  obtain ⟨as', ht, _⟩ := (hi ▸ ha).turn
  obtain ⟨a, as, rfl⟩ : ∃ a as', as = a :: as' := by
    obtain ⟨kind, mark⟩ := i
    subst hi
    cases kind with
    | aliasOf | scalar => cases ht <;> exact ⟨_, _, rfl⟩
    | sequenceStart | mappingStart =>
        obtain ⟨behind, hn, _⟩ := ht
        cases hn <;> exact ⟨_, _, rfl⟩
    | sequenceEnd => exact absurd rfl (hb _ rfl .element)
    | mappingEnd => exact absurd rfl (hb _ rfl .key)
    | void => exact absurd rfl hv
  exact ⟨_, (node_follows hs depth path _ _ _ a as ha (fun i hi => hb i hi a) h).1⟩

end Build

/-! ## Texts -/

/-- The items of a text's document from a position on. -/
def itemsFrom (text : String) (position : Nat) : List Item :=
  (Document.ofText text.toList).items.drop position

/-- What items say in a text's document. -/
def DenotedIn (text : String) (items : List Item) (t : Tree) (rest : List Item) : Prop :=
  Denotes (Document.ofText text.toList) (fun c v => Resolve.scalar text.toUTF8 c = .ok v)
    items t rest

/-- The one tree at a position of a text's document: what the items say there, and whatever is read
there, at any depth and after any number of aliases. -/
structure TreeAt (text : String) (position : Nat) (t : Tree) : Prop where
  denoted : ∃ rest, DenotedIn text (itemsFrom text position) t rest
  only : ∀ u rest, DenotedIn text (itemsFrom text position) u rest → u = t
  read : ∀ depth path jumps u p,
    Build.node (.ofText text) depth path ⟨itemsFrom text position, jumps⟩ = .ok (u, p) → u = t

/-- The events of a text that are within documents. -/
def innerEvents (text : String) : List Event :=
  Event.inner (Events.ofTokens (.ofText text.toList)).list

/-- Their anchors, by position. -/
def anchorsOf (text : String) : List (Option String) := Event.anchors (innerEvents text)

section Texts

variable {text : String} {t u : Tree} {position p q : Nat} {name : String} {start stop : Mark}

theorem not_void_of_kept {es : List Event} {items : List Item}
    (h : List.Forall₂ Event.KeptAs es items) : ∀ i ∈ items, i.kind ≠ .void := by
  intro i hi
  obtain ⟨_, _, hk⟩ := Steps.related_of_mem h hi
  exact hk.ne_void

theorem DenotedIn.unique {items rest rest' : List Item} (h : DenotedIn text items t rest)
    (h' : DenotedIn text items u rest') : t = u :=
  (Denotes.unique (fun _ _ _ h h' => Except.ok.inj (h.symm.trans h')) h h').1

/-- The items that are kept of a text's events are its document, which says a tree. -/
structure Kept (text : String) (t : Tree) : Prop where
  tracked : (Document.ofText text.toList).Tracked (innerEvents text)
  items : List.Forall₂ Event.KeptAs (innerEvents text) (Document.ofText text.toList).items
  denoted : DenotedIn text (Document.ofText text.toList).items t []

theorem kept_of_read (h : read text = .ok t) {e : Event} (he : e ∈ innerEvents text) :
    Kept text t := by
  cases (collected_of_read h).2 with
  | nothing _ hi =>
      rw [innerEvents, hi] at he
      cases he
  | document _ hi ht =>
      obtain ⟨kept, hfirst, htracked⟩ :=
        Document.Partial.collect_tracked _ _ .nil (not_void_of_kept hi)
      rw [List.nil_append] at htracked
      have hlen : kept.length = (innerEvents text).length := by
        rw [innerEvents, hi.length_eq]
        exact htracked.length.symm
      rw [hfirst.eq_of_length hlen] at htracked
      exact ⟨htracked, hi, ht⟩

/-- What the items say at a position is the one tree there. -/
theorem Kept.treeAt (h : Kept text t) {rest : List Item}
    (hd : DenotedIn text (itemsFrom text position) u rest) : TreeAt text position u where
  denoted := ⟨rest, hd⟩
  only _ _ hd' := DenotedIn.unique hd' hd
  read depth path jumps u' p hread := by
    obtain ⟨hb, i, behind, hi, hv⟩ := Denotes.begins hd
    have hsuffix : itemsFrom text position <:+ (Document.ofText text.toList).items :=
      List.drop_suffix _ _
    have hm : i ∈ (Document.ofText text.toList).items := hsuffix.subset (hi ▸ List.mem_cons_self)
    have hknown :=
      Build.known_of_faithful text.toUTF8 (Document.ofEvents_faithful (.ofText text.toList)) hm
        (not_void_of_kept h.items)
    obtain ⟨rest', hd'⟩ := hknown.node_denotes hsuffix hi hb hv hread
    exact DenotedIn.unique hd' hd

/-- Aliases are transparent. The tree at an alias is the tree of a node: that of the position which
the latest anchor of its name in front of the alias keeps. -/
theorem read_aliases (h : read text = .ok t)
    (ha : (innerEvents text)[position]? = some ⟨.aliasOf name, start, stop⟩) :
    ∃ p q u, Names.IsLatest (anchorsOf text) position name p ∧ Names.Keeps (anchorsOf text) p q ∧
      TreeAt text position u ∧ TreeAt text q u := by
  have hkept := kept_of_read h (List.mem_of_getElem? ha)
  obtain ⟨number, p, q, hi, hlatest, hkeeps, htarget⟩ := hkept.tracked.aliasOf ha
  have hfrom : itemsFrom text position = ⟨.aliasOf number, start⟩ ::
      itemsFrom text (position + 1) := by
    obtain ⟨hlt, hget⟩ := List.getElem?_eq_some_iff.mp hi
    rw [← hget]
    exact List.drop_eq_getElem_cons hlt
  have hbegins : Begins (itemsFrom text position) := by
    rw [hfrom]
    rintro _ ⟨⟩
    simp [Item.Kind.role]
  obtain ⟨u, rest, hu⟩ :=
    Denotes.inside hkept.denoted (List.drop_suffix position _)
      (by rw [← itemsFrom, hfrom]; simp) hbegins
  obtain ⟨behind, hq⟩ : ∃ behind, DenotedIn text (itemsFrom text q) u behind := by
    rw [← itemsFrom, hfrom] at hu
    cases hu with
    | content hu => cases hu
    | aliasOf hu =>
        rw [Array.getD_eq_getD_getElem?, htarget] at hu
        exact ⟨_, .content hu⟩
  exact ⟨p, q, u, hlatest, hkeeps, hkept.treeAt hu, hkept.treeAt hq⟩

/-- If the name of that anchor is new, or no anchor is behind it, the tree is that of its own
node. -/
theorem read_aliases_own (h : read text = .ok t)
    (ha : (innerEvents text)[position]? = some ⟨.aliasOf name, start, stop⟩)
    (hp : Names.IsLatest (anchorsOf text) position name p)
    (hown : Names.IsNew (anchorsOf text) name p ∨
      ∀ r name, p < r → ¬Names.GivenAt (anchorsOf text) name r) :
    ∃ u, TreeAt text position u ∧ TreeAt text p u := by
  obtain ⟨p', q, u, hlatest, hkeeps, hu, hq⟩ := read_aliases h ha
  obtain rfl := hlatest.unique hp
  obtain rfl := (hkeeps.self_iff hlatest.given).mpr hown
  exact ⟨u, hu, hq⟩

/-- The second `a` loses its number to `b`. -/
example :
    (read "[&a 1, &a 2, &b 3, *a]").toOption.any (·.same (.seq [.int 1, .int 2, .int 3, .int 3])) =
    true := by decide +kernel

end Texts

end BootConfig.Yaml
