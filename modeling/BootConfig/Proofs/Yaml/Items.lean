import BootConfig.Proofs.Yaml.Event.Nested

/-!
# The items of a document

Each scalar of a document is one of the events, the items nest as the events do, and what an anchor
names is a scalar or a collection among the items with all that follows it.
-/

namespace BootConfig.Yaml

/-! ## What is awaited last -/

namespace Awaits

variable {a : Awaits} {as as' : List Awaits}

theorem last_cons (a : Awaits) (h : as.getLast? = some .close) :
    (a :: as).getLast? = some .close := by
  rw [List.getLast?_cons, h]
  rfl

theorem last_of_cons (ha : a ≠ .close) (h : (a :: as).getLast? = some .close) :
    as.getLast? = some .close := by
  rw [List.getLast?_cons] at h
  cases hl : as.getLast? with
  | none =>
      rw [hl] at h
      exact absurd (Option.some.inj h) ha
  | some x => rwa [hl] at h

theorem Node.last (h : Node as as') (hl : as.getLast? = some .close) :
    as'.getLast? = some .close := by
  cases h with
  | root => exact last_of_cons (by simp) hl
  | element => exact hl
  | key => exact last_cons _ (last_of_cons (by simp) hl)
  | value => exact last_cons _ (last_of_cons (by simp) hl)

end Awaits

/-! ## Items -/

namespace Item.Kind

def role : Item.Kind → Role
  | aliasOf _ | scalar _ => .leaf
  | sequenceStart _ => .opens .element
  | sequenceEnd => .closes .element
  | mappingStart _ => .opens .key
  | mappingEnd => .closes .key
  | void => .outside

theorem turns_last {kind : Item.Kind} {as as' : List Awaits} (h : kind.role.Turns as as')
    (hl : as.getLast? = some .close) : as'.getLast? = some .close := by
  cases kind with
  | aliasOf => exact Awaits.Node.last h hl
  | scalar => exact Awaits.Node.last h hl
  | sequenceStart =>
      obtain ⟨_, hn, rfl⟩ := h
      exact Awaits.last_cons _ (hn.last hl)
  | mappingStart =>
      obtain ⟨_, hn, rfl⟩ := h
      exact Awaits.last_cons _ (hn.last hl)
  | sequenceEnd =>
      obtain rfl : as = .element :: as' := h
      exact Awaits.last_of_cons (by simp) hl
  | mappingEnd =>
      obtain rfl : as = .key :: as' := h
      exact Awaits.last_of_cons (by simp) hl
  | void =>
      obtain ⟨rfl, _⟩ := h
      cases hl

/-- Items that an anchor can name. -/
def isAnchored : Item.Kind → Bool
  | scalar _ | sequenceStart _ | mappingStart _ => true
  | _ => false

end Item.Kind

/-- A document's items up to some point, and what they await. -/
def Items.Nest (items : List Item) (as as' : List Awaits) : Prop :=
  Role.Runs (items.map (·.kind.role)) as as'

theorem Items.Nest.append {items items' : List Item} {as as' as'' : List Awaits}
    (h : Nest items as as') (h' : Nest items' as' as'') : Nest (items ++ items') as as'' := by
  unfold Nest
  rw [List.map_append]
  exact Role.Runs.append h h'

/-- The scalar of an event. -/
def Event.Writes (e : Event) (c : Scalar) : Prop :=
  ∃ anchor, e.kind = .scalar ⟨anchor, c.tag⟩ c.style c.text ∧ c.start = e.start.offset ∧
    c.stop = e.stop.offset

namespace Document

/-- What the items of a document come from. Without an event inside a document there is none, or a
single void one. -/
structure Faithful (events : List Event) (d : Document) : Prop where
  scalars : ∀ c mark, ⟨.scalar c, mark⟩ ∈ d.items → ∃ e ∈ events, e.Writes c
  targets : ∀ target ∈ d.targets, target <:+ d.items ∧
    ∃ i rest, target = i :: rest ∧ i.kind.isAnchored = true
  nest : d.items = [] ∨ (∃ mark, d.items = [⟨.void, mark⟩]) ∨
    ∃ as, Items.Nest d.items [.root, .close] as

/-! ## Anchors -/

theorem Anchors.mem_defineAny {a : Anchors} {anchor : Option String} {position n : Nat}
    (h : n ∈ (a.defineAny anchor position).positions) : n ∈ a.positions ∨ n = position := by
  cases anchor with
  | none => exact Or.inl h
  | some name =>
      simp only [defineAny, define] at h
      split at h
      · rw [Array.set!_eq_setIfInBounds] at h
        exact Array.mem_or_eq_of_mem_setIfInBounds h
      · exact Array.mem_push.mp h

namespace Partial

/-- What was found so far, and what it awaits. In front of a document nothing is found. -/
structure Faithful (events : List Event) (as : List Awaits) (p : Partial) : Prop where
  count : p.count = p.items.length
  scalars : ∀ c mark, ⟨.scalar c, mark⟩ ∈ p.items → ∃ e ∈ events, e.Writes c
  anchors : ∀ n ∈ p.anchors.positions, ∃ i ∈ p.items.reverse[n]?, i.kind.isAnchored = true
  nest : as = [] ∧ p.items = [] ∨ Items.Nest p.items.reverse [.root, .close] as ∧
    as.getLast? = some .close

variable {events : List Event} {as as' : List Awaits} {p : Partial} {anchor : Option String}
  {kind : Item.Kind} {mark : Mark}

theorem Faithful.start : Partial.empty.Faithful events [] :=
  ⟨rfl, fun _ _ h => absurd h List.not_mem_nil, fun _ h => absurd h (Array.not_mem_empty _),
    Or.inl ⟨rfl, rfl⟩⟩

/-- An item that is awaited, with the anchor that names it. -/
theorem Faithful.add (h : p.Faithful events as) (ht : kind.role.Turns as as') (hk : kind ≠ .void)
    (hs : ∀ c, kind = .scalar c → ∃ e ∈ events, e.Writes c)
    (ha : anchor = none ∨ kind.isAnchored = true) :
    ((p.named anchor).add kind mark).Faithful events as' where
  count := congrArg (· + 1) h.count
  scalars c m hm := by
    rcases List.mem_cons.mp hm with heq | hm
    · exact hs c (Item.mk.inj heq).1.symm
    · exact h.scalars c m hm
  anchors n hn := by
    have hold : n ∈ p.anchors.positions →
        ∃ i ∈ (⟨kind, mark⟩ :: p.items).reverse[n]?, i.kind.isAnchored = true := by
      intro hn
      obtain ⟨i, hi, hanchored⟩ := h.anchors n hn
      obtain ⟨hlt, _⟩ := List.getElem?_eq_some_iff.mp hi
      refine ⟨i, ?_, hanchored⟩
      rw [List.reverse_cons, List.getElem?_append_left hlt]
      exact hi
    rcases ha with rfl | ha
    · exact hold hn
    · rcases Anchors.mem_defineAny hn with hn | rfl
      · exact hold hn
      · refine ⟨⟨kind, mark⟩, ?_, ha⟩
        change (⟨kind, mark⟩ :: p.items).reverse[p.count]? = _
        rw [List.reverse_cons, h.count, ← List.length_reverse, List.getElem?_concat_length]
  nest := by
    refine Or.inr ?_
    rcases h.nest with ⟨rfl, _⟩ | ⟨hn, hl⟩
    · cases kind with
      | void => exact absurd rfl hk
      | sequenceStart => obtain ⟨_, hnode, _⟩ := ht; cases hnode
      | mappingStart => obtain ⟨_, hnode, _⟩ := ht; cases hnode
      | _ => cases ht
    · refine ⟨?_, Item.Kind.turns_last ht hl⟩
      change Items.Nest (⟨kind, mark⟩ :: p.items).reverse _ _
      rw [List.reverse_cons]
      exact hn.append ⟨as', ht, rfl⟩

theorem getElem?_suffixes : {items : List Item} → {n : Nat} → n ≤ items.length →
    (suffixes items)[n]? = some (items.drop n)
  | [], 0, _ => rfl
  | _ :: _, 0, _ => rfl
  | _ :: items, n + 1, h => by
      rw [suffixes, List.getElem?_cons_succ, List.drop_succ_cons]
      exact getElem?_suffixes (Nat.le_of_succ_le_succ h)

theorem finish_faithful (hs : ∀ c mark, ⟨.scalar c, mark⟩ ∈ p.items → ∃ e ∈ events, e.Writes c)
    (ha : ∀ n ∈ p.anchors.positions, ∃ i ∈ p.items.reverse[n]?, i.kind.isAnchored = true)
    (hn : p.items.reverse = [] ∨ (∃ mark, p.items.reverse = [⟨.void, mark⟩]) ∨
      ∃ as, Items.Nest p.items.reverse [.root, .close] as)
    (broken : Option Break) (continued : Bool) : (p.finish broken continued).Faithful events where
  scalars c m hm := hs c m (List.mem_reverse.mp hm)
  targets target ht := by
    obtain ⟨n, hn, rfl⟩ := Array.mem_map.mp ht
    obtain ⟨i, hi, hanchored⟩ := ha n hn
    obtain ⟨hlt, hget⟩ := List.getElem?_eq_some_iff.mp hi
    have hdrop : (suffixes p.items.reverse).toArray.getD n [] = p.items.reverse.drop n := by
      rw [Array.getD_eq_getD_getElem?, List.getElem?_toArray, getElem?_suffixes (Nat.le_of_lt hlt)]
      rfl
    rw [hdrop]
    exact ⟨List.drop_suffix _ _, i, _, by rw [← hget]; exact List.drop_eq_getElem_cons hlt,
      hanchored⟩
  nest := hn

theorem Faithful.finish (h : p.Faithful events as) (broken : Option Break) (continued : Bool) :
    (p.finish broken continued).Faithful events := by
  refine finish_faithful h.scalars h.anchors ?_ _ _
  rcases h.nest with ⟨_, hi⟩ | ⟨hn, _⟩
  · exact Or.inl (by rw [hi]; rfl)
  · exact Or.inr (Or.inr ⟨as, hn⟩)

/-- At the end of the stream, nothing may have been found. -/
theorem Faithful.stop (h : p.Faithful events []) (mark : Mark) (broken : Option Break)
    (continued : Bool) :
    ((if p.items.isEmpty then p.add .void mark else p).finish broken continued).Faithful
      events := by
  rcases h.nest with ⟨_, hi⟩ | ⟨_, hl⟩
  · rw [if_pos (by rw [hi]; rfl)]
    have hitems : (p.add .void mark).items = [⟨.void, mark⟩] := by simp [Partial.add, hi]
    refine finish_faithful (fun c m hm => ?_) (fun n hn =>
      ?_) (Or.inr (Or.inl ⟨mark, by rw [hitems]; rfl⟩)) _ _
    · rw [hitems] at hm
      cases List.mem_singleton.mp hm
    · obtain ⟨i, hm, _⟩ := h.anchors n hn
      rw [hi] at hm
      cases hm
  · cases hl

end Partial

/-! ## Documents -/

theorem collect_faithful {problem : Option Problem} {all : List Event} : (events : List Event) →
    {as as' : List Awaits} → {p : Partial} → (∀ e ∈ events, e ∈ all) →
    Role.Runs (events.map (·.kind.role)) as as' → p.Faithful all as →
    (collect problem events p).Faithful all
  | [], _, _, _, _, _, hp => hp.finish _ _
  | e :: es, as, as', p, hall, ⟨as₁, ht, hr⟩, hp => by
      obtain ⟨he, hes⟩ := List.forall_mem_cons.mp hall
      have hadd : ∀ (anchor : Option String) {kind : Item.Kind}, e.kind.role = kind.role →
          kind ≠ .void → (∀ c, kind = .scalar c → e.Writes c) →
          (anchor = none ∨ kind.isAnchored = true) →
            (collect problem es ((p.named anchor).add kind e.start)).Faithful all :=
            fun _ _ hrole hk hs ha =>
        collect_faithful es hes hr (hp.add (hrole ▸ ht) hk (fun c hc => ⟨e, he, hs c hc⟩) ha)
      change e.kind.role.Turns as as₁ at ht
      rw [collect]
      split <;> rename_i hk <;> rw [hk] at ht hadd
      · obtain ⟨rfl, rfl⟩ := ht
        exact collect_faithful es hes hr hp
      · obtain ⟨rfl, rfl⟩ := ht
        refine collect_faithful es hes hr ⟨hp.count, hp.scalars, hp.anchors, Or.inr ?_⟩
        rcases hp.nest with ⟨_, hi⟩ | ⟨_, hl⟩
        · rw [hi]
          exact ⟨rfl, rfl⟩
        · cases hl
      · obtain ⟨rfl, rfl⟩ := ht
        exact hp.stop _ _ _
      · exact hp.finish _ _
      · split
        · exact hadd none rfl (by simp) (by simp) (Or.inl rfl)
        · exact hp.finish _ _
      · refine hadd _ rfl (by simp) (fun c hc => ?_) (Or.inr rfl)
        cases hc
        exact ⟨_, hk, rfl, rfl⟩
      · exact hadd _ rfl (by simp) (by simp) (Or.inr rfl)
      · exact hadd none rfl (by simp) (by simp) (Or.inl rfl)
      · exact hadd _ rfl (by simp) (by simp) (Or.inr rfl)
      · exact hadd none rfl (by simp) (by simp) (Or.inl rfl)

theorem ofEvents_faithful (t : Tokens) :
    (ofEvents (.ofTokens t)).Faithful (Events.ofTokens t).list := by
  obtain ⟨as, h⟩ := Events.nested_ofTokens t
  exact collect_faithful _ (fun _ h => h) h .start

end Document

end BootConfig.Yaml
