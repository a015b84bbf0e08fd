import BootConfig.Config.Convert
import BootConfig.Proofs.Yaml.Complete
import BootConfig.Proofs.Yaml.Denotes
import BootConfig.Proofs.Yaml.Event.Whole

/-!
# Nothing is left out

A text that is read as a tree is scanned and parsed to its last character, and the tree is what all
events of its only document say. Whatever is wrong anywhere in a text, or stands behind its first
document, is why there is no tree.
-/

namespace BootConfig.Yaml

open Steps

/-! ## Events and items -/

namespace Event

/-- The anchor of a node. -/
def Kind.anchor? : Event.Kind → Option String
  | .scalar p .. | .sequenceStart p | .mappingStart p => p.anchor
  | _ => none

/-- Events inside a document. -/
def Kind.isInner : Event.Kind → Bool
  | .streamStart | .streamEnd | .documentStart | .documentEnd => false
  | _ => true

/-- The item that an event inside a document is kept as, with the number of an anchor for its
name. -/
inductive KeptAs : Event → Item → Prop where
  | aliasOf {name : String} {number : Nat} {start stop : Mark} :
      KeptAs ⟨.aliasOf name, start, stop⟩ ⟨.aliasOf number, start⟩
  | scalar {p : Properties} {style : Style} {text : String} {start stop : Mark} :
      KeptAs ⟨.scalar p style text, start, stop⟩
        ⟨.scalar ⟨p.tag, style, text, start.offset, stop.offset⟩, start⟩
  | sequenceStart {p : Properties} {start stop : Mark} :
      KeptAs ⟨.sequenceStart p, start, stop⟩ ⟨.sequenceStart p.tag, start⟩
  | sequenceEnd {start stop : Mark} : KeptAs ⟨.sequenceEnd, start, stop⟩ ⟨.sequenceEnd, start⟩
  | mappingStart {p : Properties} {start stop : Mark} :
      KeptAs ⟨.mappingStart p, start, stop⟩ ⟨.mappingStart p.tag, start⟩
  | mappingEnd {start stop : Mark} : KeptAs ⟨.mappingEnd, start, stop⟩ ⟨.mappingEnd, start⟩

/-- The events inside documents. -/
def inner (es : List Event) : List Event := es.filter (·.kind.isInner)

/-- The number of documents that are begun. -/
def documents (es : List Event) : Nat := es.countP (·.kind == .documentStart)

/-- Every alias names the anchor of an event in front of it, those of `pre` included. -/
def Resolved (pre es : List Event) : Prop :=
  ∀ front name start stop post, es = front ++ ⟨.aliasOf name, start, stop⟩ :: post →
  ∃ e ∈ pre ++ front, e.kind.anchor? = some name

/-- Nothing is behind the end of the stream. -/
def EndsLast (es : List Event) : Prop :=
  ∀ front e post, es = front ++ e :: post → e.kind = .streamEnd → post = []

variable {pre es : List Event} {e : Event} {i : Item}

theorem KeptAs.isInner (h : e.KeptAs i) : e.kind.isInner = true := by cases h <;> rfl

theorem KeptAs.ne_documentStart (h : e.KeptAs i) : e.kind ≠ .documentStart := by cases h <;> simp

theorem KeptAs.ne_void (h : e.KeptAs i) : i.kind ≠ .void := by cases h <;> simp

theorem EndsLast.tail (h : EndsLast (e :: es)) : EndsLast es :=
  fun front e' post heq => h (e :: front) e' post (by rw [heq]; rfl)

theorem EndsLast.of_concat {last : Event} (h : ∀ e ∈ es, e.kind ≠ .streamEnd) :
    EndsLast (es ++ [last]) := by
  intro front e post heq hk
  rcases List.eq_nil_or_concat post with rfl | ⟨post', x, rfl⟩
  · rfl
  · have hcons : es ++ [last] = (front ++ e :: post') ++ [x] := by rw [heq]; simp
    obtain ⟨hes, _⟩ := List.append_inj' hcons rfl
    exact absurd hk (h e (by rw [hes]; simp))

theorem Resolved.nil : Resolved pre [] := fun front _ _ _ _ h => by cases front <;> cases h

theorem Resolved.cons
    (he : ∀ name, e.kind = .aliasOf name → ∃ e' ∈ pre, e'.kind.anchor? = some name)
    (h : Resolved (pre ++ [e]) es) : Resolved pre (e :: es) := by
  intro front name start stop post heq
  cases front with
  | nil =>
      obtain ⟨rfl, rfl⟩ := List.cons.inj heq
      rw [List.append_nil]
      exact he name rfl
  | cons x front =>
      obtain ⟨rfl, rfl⟩ := List.cons.inj heq
      obtain ⟨e', hm, ha⟩ := h front name start stop post rfl
      exact ⟨e', by rwa [List.append_assoc] at hm, ha⟩

end Event

/-! ## Documents -/

namespace Document

open Event (EndsLast KeptAs Resolved documents)

/-- The names of the anchors met so far are those of some events. -/
def Anchors.From (es : List Event) (a : Anchors) : Prop :=
  ∀ n ∈ a.numbers, ∃ e ∈ es, e.kind.anchor? = some n.1

theorem Anchors.mem_renumber {name : String} {number : Nat} {n : String × Nat} :
    {numbers : List (String × Nat)} → n ∈ renumber name number numbers → n ∈ numbers ∨ n.1 = name
  | [], h => by
      obtain rfl := List.mem_singleton.mp h
      exact Or.inr rfl
  | n' :: numbers, h => by
      unfold renumber at h
      split at h
      · rcases List.mem_cons.mp h with rfl | h
        · exact Or.inr rfl
        · exact Or.inl (List.mem_cons_of_mem _ h)
      · rcases List.mem_cons.mp h with rfl | h
        · exact Or.inl List.mem_cons_self
        · exact (mem_renumber h).imp_left (List.mem_cons_of_mem _)

namespace Anchors.From

variable {es es' : List Event} {e : Event} {a : Anchors}

theorem mono (h : a.From es) (hs : ∀ e ∈ es, e ∈ es') : a.From es' := fun n hn => by
  obtain ⟨e, he, ha⟩ := h n hn
  exact ⟨e, hs e he, ha⟩

theorem defineAny (h : a.From es) (position : Nat) :
    (a.defineAny e.kind.anchor? position).From (es ++ [e]) := by
  have hmono : a.From (es ++ [e]) := h.mono fun _ => List.mem_append_left _
  unfold Anchors.defineAny
  split
  · rename_i name hname
    intro n hn
    rcases Anchors.mem_renumber hn with hn | hn
    · exact hmono n hn
    · exact ⟨e, by simp, by rw [hname, hn]⟩
  · exact hmono

theorem number? {name : String} {number : Nat} (h : a.From es) (hn : a.number? name = some number) :
    ∃ e ∈ es, e.kind.anchor? = some name := by
  obtain ⟨n, hfind, _⟩ := Option.map_eq_some_iff.mp hn
  have hname : n.1 = name := by simpa using List.find?_some hfind
  rw [← hname]
  exact h n (List.mem_of_find?_eq_some hfind)

end Anchors.From

/-- What is collected from events inside a document, behind others: one item for each of them, no
other document, and no alias without its anchor. -/
structure Collects (pre : List Event) (p : Partial) (es : List Event) : Prop where
  items : ∃ items, (collect none es p).items = p.items.reverse ++ items ∧
    List.Forall₂ KeptAs (Event.inner es) items
  single : documents es = 0
  resolved : Resolved pre es

section Collects

variable {pre es : List Event} {e : Event} {p p' : Partial} {kind : Item.Kind}
  {as as' : List Awaits}

theorem Collects.cons (heq : collect none (e :: es) p = collect none es p')
    (hp : p'.items = ⟨kind, e.start⟩ :: p.items) (hk : e.KeptAs ⟨kind, e.start⟩)
    (ha : ∀ name, e.kind = .aliasOf name → ∃ e' ∈ pre, e'.kind.anchor? = some name)
    (h : Collects (pre ++ [e]) p' es) : Collects pre p (e :: es) where
  items := by
    obtain ⟨items, hitems, hkept⟩ := h.items
    refine ⟨⟨kind, e.start⟩ :: items, ?_, ?_⟩
    · rw [heq, hitems, hp, List.reverse_cons, List.append_assoc, List.singleton_append]
    · rw [Event.inner, List.filter_cons_of_pos (by exact hk.isInner)]
      exact .cons hk hkept
  single := by
    rw [documents, List.countP_cons_of_neg (by simpa using hk.ne_documentStart)]
    exact h.single
  resolved := h.resolved.cons ha

/-- The end of a document that ends the stream as well. -/
theorem Collects.finish (hk : e.kind = .documentEnd) (hc : EndsLast (e :: es))
    (hd : continues es none = false) : Collects pre p (e :: es) := by
  have hes : es = [] ∨ ∃ e', es = [e'] ∧ e'.kind = .streamEnd := by
    cases es with
    | nil => exact Or.inl rfl
    | cons e' es =>
        have hk' : e'.kind = .streamEnd := by simpa [continues] using hd
        rw [hc [e] e' es rfl hk']
        exact Or.inr ⟨e', rfl, hk'⟩
  have hnot : ∀ e' ∈ e :: es, e'.kind = .documentEnd ∨ e'.kind = .streamEnd := by
    rcases hes with rfl | ⟨e', rfl, hk'⟩
    · simp [hk]
    · simp [hk, hk']
  refine ⟨⟨[], by simp [collect, hk, Partial.finish], ?_⟩, ?_,
    fun front name start stop post heq => ?_⟩
  · rw [Event.inner, List.filter_eq_nil_iff.mpr]
    · exact .nil
    · intro e' he'
      rcases hnot e' he' with h | h <;> simp [h, Event.Kind.isInner]
  · apply List.countP_eq_zero.mpr
    intro e' he'
    rcases hnot e' he' with h | h <;> simp [h]
  · rcases hnot ⟨.aliasOf name, start, stop⟩ (by rw [heq]; simp) with h | h <;> cases h

/-- Inside a document every event becomes an item, up to the document's end. -/
theorem collects_inside : (es : List Event) → {pre : List Event} → {p : Partial} →
    {as as' : List Awaits} → Role.Runs (es.map (·.kind.role)) as as' → as.getLast? = some .close →
    EndsLast es → p.anchors.From pre → (collect none es p).broken = none →
    (collect none es p).continued = false → Collects pre p es
  | [], _, p, _, _, _, _, _, _, _, _ => ⟨⟨[], by simp [collect, Partial.finish], .nil⟩, rfl, .nil⟩
  | e :: es, pre, p, as, as', ⟨as₁, ht, hr⟩, hl, hc, ha, hb, hd => by
      -- one item, whose role is that of the event, and the anchor it may have
      have hadd : ∀ (anchor : Option String) {kind : Item.Kind}, e.kind.role = kind.role →
          e.kind.anchor? = anchor → e.KeptAs ⟨kind, e.start⟩ →
          (∀ name, e.kind = .aliasOf name → ∃ e' ∈ pre, e'.kind.anchor? = some name) →
          collect none (e :: es) p = collect none es ((p.named anchor).add kind e.start) →
          Collects pre p (e :: es) := by
        rintro _ kind hrole rfl hk hname heq
        rw [heq] at hb hd
        have hl₁ : as₁.getLast? = some .close :=
          Item.Kind.turns_last (show kind.role.Turns as as₁ from hrole ▸ ht) hl
        exact .cons heq rfl hk hname (collects_inside es hr hl₁ hc.tail (ha.defineAny _) hb hd)
      obtain ⟨kind, start, stop⟩ := e
      cases kind with
      | streamStart => rw [show as = [] from ht.1] at hl; cases hl
      | streamEnd => rw [show as = [] from ht.1] at hl; cases hl
      | documentStart => rw [show as = [] from ht.1] at hl; cases hl
      | documentEnd => exact .finish rfl hc (by simpa [collect, Partial.finish] using hd)
      | aliasOf name =>
          cases hn : p.anchors.number? name with
          | none => simp [collect, hn, Partial.finish] at hb
          | some number =>
              have hk : Event.KeptAs ⟨.aliasOf name, start, stop⟩ ⟨.aliasOf number, start⟩ :=
                .aliasOf
              refine hadd none rfl rfl hk (fun name' hname => ?_)
                (by simp [collect, hn, Partial.named, Anchors.defineAny])
              cases hname
              exact ha.number? hn
      | scalar properties style text => exact hadd properties.anchor rfl rfl .scalar (by simp) rfl
      | sequenceStart properties =>
          exact hadd properties.anchor rfl rfl .sequenceStart (by simp) rfl
      | sequenceEnd => exact hadd none rfl rfl .sequenceEnd (by simp) rfl
      | mappingStart properties => exact hadd properties.anchor rfl rfl .mappingStart (by simp) rfl
      | mappingEnd => exact hadd none rfl rfl .mappingEnd (by simp) rfl

/-- In front of a document nothing is found, or the document and then the end of the stream. -/
theorem collects_outside : (es : List Event) → {pre : List Event} → {p : Partial} →
    {as : List Awaits} → Role.Runs (es.map (·.kind.role)) [] as → EndsLast es → p.items = [] →
    p.anchors.From pre → (collect none es p).broken = none → (collect none es p).continued = false →
      Resolved pre es ∧
      (documents es = 0 ∧ Event.inner es = [] ∧ (∀ i ∈ (collect none es p).items, i.kind = .void) ∨
        documents es = 1 ∧ List.Forall₂ KeptAs (Event.inner es) (collect none es p).items)
  | [], _, p, _, _, _, hp, _, _, _ =>
      ⟨.nil, Or.inl ⟨rfl, rfl, by simp [collect, Partial.finish, hp]⟩⟩
  | ⟨kind, start, stop⟩ :: es, pre, p, as, ⟨as₁, ht, hr⟩, hc, hp, ha, hb, hd => by
      have hpre : ∀ e : Event, p.anchors.From (pre ++ [e]) :=
        fun e => ha.mono fun _ => List.mem_append_left _
      cases kind with
      | streamStart =>
          rw [show as₁ = [] from ht.2] at hr
          obtain ⟨hresolved, h⟩ :=
            collects_outside es hr hc.tail hp (hpre ⟨.streamStart, start, stop⟩) hb hd
          exact ⟨hresolved.cons (by simp), h⟩
      | streamEnd =>
          obtain rfl := hc [] _ es rfl rfl
          exact ⟨Event.Resolved.nil.cons (by simp),
            Or.inl ⟨rfl, rfl, by simp [collect, Partial.finish, Partial.add, hp]⟩⟩
      | documentStart =>
          rw [show as₁ = [.root, .close] from ht.2] at hr
          obtain ⟨⟨items, hitems, hkept⟩, hsingle, hresolved⟩ :=
            collects_inside es hr rfl hc.tail (hpre ⟨.documentStart, start, stop⟩) hb hd
          refine ⟨hresolved.cons (by simp), Or.inr ⟨?_, ?_⟩⟩
          · rw [documents, List.countP_cons_of_pos (by simp)]
            exact congrArg (· + 1) hsingle
          rw [hp] at hitems
          exact (show (collect none (⟨.documentStart, start, stop⟩ :: es) p).items =
              items from hitems) ▸ hkept
      | documentEnd => cases ht
      | aliasOf name => cases ht
      | scalar properties style text => cases ht
      | sequenceStart properties => obtain ⟨_, hn, _⟩ := ht; cases hn
      | sequenceEnd => cases ht
      | mappingStart properties => obtain ⟨_, hn, _⟩ := ht; cases hn
      | mappingEnd => cases ht

end Collects

end Document

/-! ## Texts -/

theorem Denotes.not_void {d : Document} {leaf : Scalar → Tree → Prop} {items rest : List Item}
    {t : Tree} (h : Denotes d leaf items t rest) : ¬∀ i ∈ items, i.kind = .void := by
  intro hv
  cases h with
  | aliasOf h => cases hv _ List.mem_cons_self
  | content h => cases h <;> cases hv _ List.mem_cons_self

/-- A text that is scanned and parsed to its end, and the end is met only there. -/
structure Parsed (text : List Char) : Prop where
  scanned : (Tokens.ofText text).problem = none
  tokens : ∃ ts last, (Tokens.ofText text).list = ts ++ [last] ∧ last.kind = .streamEnd ∧
    last.start.offset = bytes text
  parsed : (Events.ofTokens (.ofText text)).problem = none
  events : ∃ es last, (Events.ofTokens (.ofText text)).list = es ++ [last] ∧
    last.kind = .streamEnd ∧ last.start.offset = bytes text ∧ ∀ e ∈ es, e.kind ≠ .streamEnd

/-- The tree of a text: null where there is no document, or what all events of the only one say in
their order. -/
inductive Accounts (text : String) (es : List Event) : Tree → Prop where
  | nothing (h : Event.documents es = 0) (hi : Event.inner es = []) : Accounts text es .null
  | document {t : Tree} (h : Event.documents es = 1)
      (hi : List.Forall₂ Event.KeptAs (Event.inner es) (Document.ofText text.toList).items)
      (ht : Denotes (Document.ofText text.toList) (fun c v => Resolve.scalar text.toUTF8 c = .ok v)
        (Document.ofText text.toList).items t []) : Accounts text es t

theorem parsed_of_read {text : String} {t : Tree} (h : read text = .ok t) : Parsed text.toList := by
  have hs := tokens_of_read h
  have hp := events_of_read h
  obtain ⟨first, ts, last, hlist, _, hreach, ho⟩ := Tokens.reach_ofText hs
  obtain ⟨front, hts, _⟩ := hreach.split
  obtain ⟨es, hevents, hes⟩ := Events.whole_ofTokens hlist hreach hp
  exact ⟨hs, ⟨first :: front, last, by rw [hlist, hts]; rfl, hreach.kind, ho⟩, hp, es, _, hevents,
    rfl, ho, hes⟩

theorem collected_of_read {text : String} {t : Tree} (h : read text = .ok t) :
    Event.Resolved [] (Events.ofTokens (.ofText text.toList)).list ∧
    Accounts text (Events.ofTokens (.ofText text.toList)).list t := by
  obtain ⟨hb, hc, _⟩ := Build.root_eq_ok_iff.mp h
  have hp := events_of_read h
  have hends : Event.EndsLast (Events.ofTokens (.ofText text.toList)).list := by
    obtain ⟨es, last, hevents, _, _, hes⟩ := (parsed_of_read h).events
    rw [hevents]
    exact .of_concat hes
  obtain ⟨as, hnested⟩ := Events.nested_ofTokens (.ofText text.toList)
  have hd : Document.ofText text.toList =
      Document.collect none (Events.ofTokens (.ofText text.toList)).list .empty := by
    rw [Document.ofText, Document.ofEvents, hp]
  have hfrom : Document.Partial.empty.anchors.From [] := fun _ hn => absurd hn List.not_mem_nil
  have hb' : (Document.ofText text.toList).broken = none := hb
  have hc' : (Document.ofText text.toList).continued = false := hc
  rw [hd] at hb' hc'
  obtain ⟨hresolved, hcollects⟩ := Document.collects_outside _ hnested hends rfl hfrom hb' hc'
  refine ⟨hresolved, ?_⟩
  rw [← hd] at hcollects
  have hmeans :
      (Document.ofText text.toList).Means (fun c v => Resolve.scalar text.toUTF8 c = .ok v) t :=
    read_means h fun _ _ _ hv => hv
  rcases hcollects with ⟨hn, hi, hvoid⟩ | ⟨hn, hi⟩
  · cases hmeans with
    | void _ => exact .nothing hn hi
    | node hdenotes => exact absurd hvoid (Denotes.not_void hdenotes)
  · cases hmeans with
    | void hitems =>
        rw [hitems] at hi
        obtain ⟨_, _, hk, _⟩ := List.forall₂_cons_right_iff.mp hi
        exact absurd rfl hk.ne_void
    | node hdenotes => exact .document hn hi hdenotes

end BootConfig.Yaml
