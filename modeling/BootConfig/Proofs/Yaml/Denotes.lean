import BootConfig.Proofs.Yaml.Node

/-!
# What the items of a document say

The tree of a node as a relation, with no bound on how deep it is or how many aliases are followed:
a scalar is what `leaf` relates it to, a collection is what its nodes are, and an alias is the node
that its anchor names.
-/

namespace BootConfig.Yaml

open Steps

mutual

/-- The node in front of some items, and the items behind it. -/
inductive Denotes (d : Document) (leaf : Scalar → Tree → Prop) :
    List Item → Tree → List Item → Prop where
  | content {items rest : List Item} {t : Tree} (h : DenotesContent d leaf items t rest) :
      Denotes d leaf items t rest
  | aliasOf {anchor : Nat} {mark : Mark} {rest behind : List Item} {t : Tree}
      (h : DenotesContent d leaf (d.targets.getD anchor []) t behind) :
        Denotes d leaf (⟨.aliasOf anchor, mark⟩ :: rest) t rest

/-- A node that is not an alias. -/
inductive DenotesContent (d : Document) (leaf : Scalar → Tree → Prop) :
    List Item → Tree → List Item → Prop where
  | scalar {c : Scalar} {mark : Mark} {rest : List Item} {v : Tree} (h : leaf c v) :
      DenotesContent d leaf (⟨.scalar c, mark⟩ :: rest) (Build.named c.tag v) rest
  | sequence {tag : Option TagText} {mark : Mark} {rest behind : List Item} {ts : List Tree}
      (h : DenotesElements d leaf rest ts behind) :
      DenotesContent d leaf (⟨.sequenceStart tag, mark⟩ :: rest) (Build.named tag (.seq ts)) behind
  | mapping {tag : Option TagText} {mark : Mark} {rest behind : List Item} {es : Entries}
      (h : DenotesEntries d leaf rest es behind) :
      DenotesContent d leaf (⟨.mappingStart tag, mark⟩ :: rest)
        (Build.named tag (.map (Entries.ofList es))) behind

/-- The elements of a sequence and its end. -/
inductive DenotesElements (d : Document) (leaf : Scalar → Tree → Prop) :
    List Item → List Tree → List Item → Prop where
  | stop {mark : Mark} {rest : List Item} :
      DenotesElements d leaf (⟨.sequenceEnd, mark⟩ :: rest) [] rest
  | element {items rest behind : List Item} {t : Tree} {ts : List Tree}
      (h : Denotes d leaf items t rest)
      (hs : DenotesElements d leaf rest ts behind) : DenotesElements d leaf items (t :: ts) behind

/-- The entries of a mapping as they are written, and its end. -/
inductive DenotesEntries (d : Document) (leaf : Scalar → Tree → Prop) :
    List Item → Entries → List Item → Prop where
  | stop {mark : Mark} {rest : List Item} :
      DenotesEntries d leaf (⟨.mappingEnd, mark⟩ :: rest) [] rest
  | entry {items rest rest' behind : List Item} {key value : Tree} {es : Entries}
      (hk : Denotes d leaf items key rest)
      (hv : Denotes d leaf rest value rest') (hs : DenotesEntries d leaf rest' es behind) :
      DenotesEntries d leaf items ((key, value) :: es) behind

end

/-- A document is its node, all of it, or null where there is none. -/
inductive Document.Means (d : Document) (leaf : Scalar → Tree → Prop) : Tree → Prop where
  | void {mark : Mark} (h : d.items = [⟨.void, mark⟩]) : Means d leaf .null
  | node {t : Tree} (h : Denotes d leaf d.items t []) : Means d leaf t

/-! ## Items ahead -/

theorem Role.Runs.split {as as'' : List Awaits} {rs rs' : List Role}
    (h : Runs (rs ++ rs') as as'') : ∃ as', Runs rs as as' ∧ Runs rs' as' as'' := by
  induction rs generalizing as with
  | nil => exact ⟨as, rfl, h⟩
  | cons r rs ih =>
      obtain ⟨as₁, ht, hr⟩ := h
      obtain ⟨as', h₁, h₂⟩ := ih hr
      exact ⟨as', ⟨as₁, ht, h₁⟩, h₂⟩

/-- The last items of a document, with what they await. -/
structure Document.Ahead (d : Document) (as : List Awaits) (items : List Item) : Prop where
  suffix : items <:+ d.items
  nest : ∃ as', Items.Nest items as as'

namespace Document.Ahead

variable {d : Document} {as : List Awaits} {a : Awaits} {i : Item} {items : List Item}

theorem turn (h : d.Ahead as (i :: items)) :
    ∃ as', i.kind.role.Turns as as' ∧ d.Ahead as' items := by
  obtain ⟨_, as', ht, hn⟩ := h.nest
  exact ⟨as', ht, (List.suffix_cons i items).trans h.suffix, _, hn⟩

theorem of_suffix {items' : List Item} (h : d.Ahead as items) (hs : items' <:+ items) :
    ∃ as', d.Ahead as' items' := by
  obtain ⟨front, rfl⟩ := hs
  obtain ⟨as'', hn⟩ := h.nest
  unfold Items.Nest at hn
  rw [List.map_append] at hn
  obtain ⟨as', _, hr⟩ := hn.split
  exact ⟨as', (List.suffix_append _ _).trans h.suffix, as'', hr⟩

end Document.Ahead

theorem Item.Kind.role_ne_closes {a : Awaits} (kind : Item.Kind) (he : a ≠ .element)
    (hk : a ≠ .key) : kind.role ≠ .closes a := by
  cases kind <;> simp [role, he.symm, hk.symm]

theorem Item.Kind.role_ne_element {kind : Item.Kind} (h : kind ≠ .sequenceEnd) :
    kind.role ≠ .closes .element := by
  cases kind <;> simp_all [role]

theorem Item.Kind.role_ne_key {kind : Item.Kind} (h : kind ≠ .mappingEnd) :
    kind.role ≠ .closes .key := by
  cases kind <;> simp_all [role]

/-! ## Readers -/

namespace Build

variable {s : Source} {leaf : Scalar → Tree → Prop} {p p' : Progress} {i : Item} {as : List Awaits}

/-- What is known of a source before it is read: its scalars are related to their values, and
anchors name items of it. -/
structure Known (s : Source) (leaf : Scalar → Tree → Prop) : Prop where
  leaves : ∀ c mark v, ⟨.scalar c, mark⟩ ∈ s.document.items →
    Resolve.scalar s.input c = .ok v → leaf c v
  targets : ∀ target ∈ s.document.targets, target <:+ s.document.items ∧
    ∃ i rest, target = i :: rest ∧ i.kind.isAnchored = true
  ahead : s.document.Ahead [.root, .close] s.document.items
  size : s.document.items.length ≤ s.size

/-- A reader that reads what the items say, wherever a node is awaited and no end of a collection is
ahead. -/
def Follows (s : Source) (leaf : Scalar → Tree → Prop) (read : Reader) : Prop :=
  ∀ path p t p' a as, s.document.Ahead (a :: as) p.rest →
    (∀ i ∈ p.rest.head?, i.kind.role ≠ .closes a) →
    read path p = .ok (t, p') → Denotes s.document leaf p.rest t p'.rest ∧
      p'.rest.length < p.rest.length ∧
      ∃ behind, Awaits.Node (a :: as) behind ∧ s.document.Ahead behind p'.rest

theorem elements_follow {read : Reader} (hread : Follows s leaf read) (path : Path) :
    (fuel index : Nat) → (acc : List Tree) → {p p' : Progress} → {ts : List Tree} →
    s.document.Ahead (.element :: as) p.rest → p.rest.length < fuel →
    elements s read path fuel index acc p = .ok (ts, p') →
    ∃ ts', ts = acc.reverse ++ ts' ∧ DenotesElements s.document leaf p.rest ts' p'.rest ∧
      p'.rest.length < p.rest.length ∧ s.document.Ahead as p'.rest
  | 0, _, _, _, _, _, _, hf, _ => absurd hf (Nat.not_lt_zero _)
  | fuel + 1, index, acc, p, p', ts, ha, hf, h => by
      obtain ⟨⟨kind, mark⟩, rest, hrest, ⟨hk, rfl, rfl⟩ | ⟨hk, t, p₁, ht, h⟩⟩ := elements_step h
      · rw [hrest] at ha ⊢
        obtain ⟨as', hturn, ha'⟩ := ha.turn
        rcases hk with rfl | rfl
        · cases hturn
          exact ⟨[], by simp, .stop, Nat.lt_succ_self _, ha'⟩
        · cases hturn.1
      · have hhead : ∀ i ∈ p.rest.head?, i.kind.role ≠ .closes .element := by
          rw [hrest]
          rintro i ⟨⟩
          exact Item.Kind.role_ne_element hk
        obtain ⟨hd, hl, behind, hn, ha₁⟩ := hread _ _ _ _ _ _ ha hhead ht
        cases hn
        obtain ⟨ts', rfl, hds, hl', ha'⟩ := elements_follow hread path fuel _ _ ha₁ (by omega) h
        exact ⟨t :: ts', by simp, .element hd hds, by omega, ha'⟩

theorem entries_follow {read : Reader} (hread : Follows s leaf read) (path : Path) :
    (fuel : Nat) → (acc : Entries) → {p p' : Progress} → {es : Entries} →
    s.document.Ahead (.key :: as) p.rest → p.rest.length < fuel →
    entries s read path fuel acc p = .ok (es, p') →
    ∃ es', es = es'.foldl (fun acc e => acc.put e.1 e.2) acc ∧
      DenotesEntries s.document leaf p.rest es' p'.rest ∧
      p'.rest.length < p.rest.length ∧ s.document.Ahead as p'.rest
  | 0, _, _, _, _, _, hf, _ => absurd hf (Nat.not_lt_zero _)
  | fuel + 1, acc, p, p', es, ha, hf, h => by
      obtain ⟨⟨kind, mark⟩, rest, hrest,
        ⟨hk, rfl, rfl⟩ | ⟨hk, key, p₁, value, p₂, hkey, hvalue, h⟩⟩ := entries_step h
      · rw [hrest] at ha ⊢
        obtain ⟨as', hturn, ha'⟩ := ha.turn
        rcases hk with rfl | rfl
        · cases hturn
          exact ⟨[], rfl, .stop, Nat.lt_succ_self _, ha'⟩
        · cases hturn.1
      · have hhead : ∀ i ∈ p.rest.head?, i.kind.role ≠ .closes .key := by
          rw [hrest]
          rintro i ⟨⟩
          exact Item.Kind.role_ne_key hk
        obtain ⟨hd, hl, behind, hn, ha₁⟩ := hread _ _ _ _ _ _ ha hhead hkey
        cases hn
        obtain ⟨hd', hl', behind, hn, ha₂⟩ :=
          hread _ _ _ _ _ _ ha₁ (fun i _ => i.kind.role_ne_closes (by simp) (by simp)) hvalue
        cases hn
        obtain ⟨es', rfl, hds, hl'', ha'⟩ := entries_follow hread path fuel _ ha₂ (by omega) h
        exact ⟨(key, value) :: es', rfl, .entry hd hd' hds, by omega, ha'⟩

/-! ## Nodes -/

variable {inner : Option Reader} {t : Tree}

theorem content_follows (hs : Known s leaf) (hi : ∀ read ∈ inner, Follows s leaf read) {path : Path}
    (ha : s.document.Ahead as (i :: p.rest))
    (hk : i.kind.isAnchored = true) (h : content s inner i path p = .ok (t, p')) :
    DenotesContent s.document leaf (i :: p.rest) t p'.rest ∧ p'.rest.length ≤ p.rest.length ∧
      ∃ behind, Awaits.Node as behind ∧ s.document.Ahead behind p'.rest := by
  obtain ⟨kind, mark⟩ := i
  obtain ⟨as', ht, ha'⟩ := ha.turn
  have hsize : p.rest.length < s.size := Nat.lt_of_lt_of_le ha.suffix.length_le hs.size
  cases content_step h with
  | @scalar c v hkind hv =>
      cases hkind
      have hm : ⟨.scalar c, mark⟩ ∈ s.document.items := ha.suffix.subset (by simp)
      exact ⟨.scalar (hs.leaves c mark v hm hv), Nat.le_refl _, as', ht, ha'⟩
  | sequence hkind hinner hts =>
      cases hkind
      obtain ⟨behind, hn, rfl⟩ := ht
      obtain ⟨ts', rfl, hd, hl, ha''⟩ := elements_follow (hi _ hinner) path _ _ _ ha' hsize hts
      exact ⟨.sequence hd, Nat.le_of_lt hl, behind, hn, ha''⟩
  | mapping hkind hinner hes =>
      cases hkind
      obtain ⟨behind, hn, rfl⟩ := ht
      obtain ⟨es', rfl, hd, hl, ha''⟩ := entries_follow (hi _ hinner) path _ _ ha' hsize hes
      exact ⟨.mapping hd, Nat.le_of_lt hl, behind, hn, ha''⟩
  | none hkind =>
      rw [hkind] at hk
      cases hk

theorem jump_follows (hs : Known s leaf) (hi : ∀ read ∈ inner, Follows s leaf read) {anchor : Nat}
    {path : Path} (h : jump s inner anchor path p = .ok (t, p')) :
    p'.rest = p.rest ∧
    ∃ behind, DenotesContent s.document leaf (s.document.targets.getD anchor []) t behind := by
  obtain ⟨_, i, rest, p₁, hrest, ht, rfl⟩ := jump_ok h
  have hm : s.document.targets.getD anchor [] ∈ s.document.targets := by
    rw [Array.getD_eq_getD_getElem?] at hrest ⊢
    cases hg : s.document.targets[anchor]? with
    | none => rw [hg] at hrest; cases hrest
    | some target => exact Array.mem_of_getElem? hg
  obtain ⟨hsuffix, i', rest', heq, hk⟩ := hs.targets _ hm
  rw [hrest] at hsuffix heq ⊢
  cases heq
  obtain ⟨as', ha⟩ := hs.ahead.of_suffix hsuffix
  exact ⟨rfl, _, (content_follows hs hi ha hk ht).1⟩

theorem nodeWith_follows (hs : Known s leaf) (hi : ∀ read ∈ inner, Follows s leaf read) :
    Follows s leaf (nodeWith s inner) := by
  intro path p t p' a as ha hhead h
  obtain ⟨⟨kind, mark⟩, rest, hrest, hnode⟩ := nodeWith_ok h
  rw [hrest] at ha hhead ⊢
  obtain ⟨as', ht, ha'⟩ := ha.turn
  rcases hnode with ⟨anchor, rfl, h⟩ | ⟨halias, h⟩
  · obtain ⟨hp, behind, hd⟩ := jump_follows hs hi h
    rw [hp]
    exact ⟨.aliasOf hd, Nat.lt_succ_self _, as', ht, ha'⟩
  · have hclose := hhead _ rfl
    have hk : kind.isAnchored = true := by
      cases kind with
      | aliasOf anchor => exact absurd rfl (halias anchor)
      | sequenceEnd | mappingEnd =>
          cases ht
          exact absurd rfl hclose
      | void => cases ht.1
      | _ => rfl
    obtain ⟨hd, hl, hbehind⟩ := content_follows hs hi ha hk h
    exact ⟨.content hd, Nat.lt_succ_of_le hl, hbehind⟩

theorem node_follows (hs : Known s leaf) : (depth : Nat) → Follows s leaf (node s depth)
  | 0 => nodeWith_follows hs fun _ h => absurd h (by simp)
  | depth + 1 => nodeWith_follows hs fun _ h => by cases h; exact node_follows hs depth

end Build

/-! ## Documents -/

/-- Nothing is behind the node of a document. -/
theorem Document.Ahead.eq_nil {d : Document} {items : List Item} (h : d.Ahead [.close] items) :
    items = [] := by
  cases items with
  | nil => rfl
  | cons i items =>
      obtain ⟨as', ht, _⟩ := h.turn
      obtain ⟨kind, mark⟩ := i
      cases kind with
      | sequenceStart | mappingStart => obtain ⟨_, hn, _⟩ := ht; cases hn
      | void => cases ht.1
      | _ => cases ht

/-- The node that is read of a document is what it says. -/
theorem Build.node_means {d : Document} {events : List Event} {input : ByteArray}
    {leaf : Scalar → Tree → Prop} {t : Tree} {p : Progress} (hd : d.Faithful events)
    (hleaf : ∀ c v, (∃ e ∈ events, e.Writes c) → Resolve.scalar input c = .ok v → leaf c v)
    (h : Build.node ⟨input, d, d.items.length⟩ maxDepth .root ⟨d.items, 0⟩ = .ok (t, p)) :
      d.Means leaf t := by
  rcases hd.nest with hi | ⟨mark, hi⟩ | ⟨as, hnest⟩
  · rw [hi] at h
    obtain ⟨i, p₁, hnext, _⟩ := ok_of_bind h
    cases (Build.next_ok hnext).1
  · rw [hi] at h
    cases h
    exact .void hi
  · have hs : Build.Known ⟨input, d, d.items.length⟩ leaf := {
      leaves := fun c mark v hm => hleaf c v (hd.scalars c mark hm)
      targets := hd.targets
      ahead := ⟨List.suffix_refl _, as, hnest⟩
      size := Nat.le_refl _ }
    have hhead : ∀ i ∈ d.items.head?, i.kind.role ≠ .closes .root :=
      fun i _ => i.kind.role_ne_closes (by simp) (by simp)
    obtain ⟨hdenotes, _, behind, hnode, ha⟩ :=
      Build.node_follows hs maxDepth _ _ _ _ _ _ hs.ahead hhead h
    cases hnode
    rw [ha.eq_nil] at hdenotes
    exact .node hdenotes

/-- The tree that is read from a text is what its document says, where every scalar is an event of
the text. -/
theorem read_means {text : String} {t : Tree} {leaf : Scalar → Tree → Prop} (h : read text = .ok t)
    (hleaf : ∀ c v, (∃ e ∈ (Events.ofTokens (.ofText text.toList)).list, e.Writes c) →
      Resolve.scalar text.toUTF8 c = .ok v → leaf c v) :
    (Document.ofText text.toList).Means leaf t := by
  obtain ⟨_, _, p, hn⟩ := Build.root_eq_ok_iff.mp h
  exact Build.node_means (Document.ofEvents_faithful (.ofText text.toList)) hleaf hn

end BootConfig.Yaml
