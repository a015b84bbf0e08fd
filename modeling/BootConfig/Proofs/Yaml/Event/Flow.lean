import BootConfig.Proofs.Steps
import BootConfig.Proofs.Yaml.Token.Spelled
import BootConfig.Yaml.Node

/-!
# Events of flow collections

The grammar takes the tokens of a written tree as the events of a node, one for each scalar and two
for each collection, as long as all keys are recognised.
-/

namespace BootConfig.Yaml

open Steps

/-! ## Runs of the grammar -/

/-- The grammar finds events on its way. -/
def Finds (g g' : Grammar) (events : List Event) : Prop :=
  ∀ fuel acc, Grammar.run (events.length + fuel) g acc = Grammar.run fuel g' (events.reverse ++ acc)

theorem Finds.refl (g : Grammar) : Finds g g [] := fun fuel acc => by simp

theorem Finds.trans {g₁ g₂ g₃ : Grammar} {a b : List Event} (h : Finds g₁ g₂ a)
    (h' : Finds g₂ g₃ b) : Finds g₁ g₃ (a ++ b) :=
  fun fuel acc => by
    rw [List.length_append, Nat.add_assoc, h, h', List.reverse_append, List.append_assoc]

theorem Finds.of_step {g g₁ g₂ : Grammar} {e : Event} {events : List Event}
    (hs : Parse.step g = .ok (some e, g₁))
    (h : Finds g₁ g₂ events) : Finds g g₂ (e :: events) := fun fuel acc => by
  rw [List.length_cons, Nat.add_right_comm, Grammar.run, hs]
  simpa using h fuel (e :: acc)

namespace Parse

variable {t : Token} {tokens : List Token} {expect e : Expect} {stack : List Expect}
  {handles : Handles}

@[simp] theorem peek_cons :
    peek ⟨t :: tokens, expect, stack, handles⟩ = .ok (t, ⟨t :: tokens, expect, stack, handles⟩) :=
  rfl

@[simp] theorem skip_cons :
    skip ⟨t :: tokens, expect, stack, handles⟩ = .ok ((), ⟨tokens, expect, stack, handles⟩) := rfl

@[simp] theorem next_apply :
    next e ⟨tokens, expect, stack, handles⟩ = .ok ((), ⟨tokens, e, stack, handles⟩) := rfl

@[simp] theorem later_apply :
    later e ⟨tokens, expect, stack, handles⟩ = .ok ((), ⟨tokens, expect, e :: stack, handles⟩) :=
  rfl

@[simp] theorem complete_cons :
    complete ⟨tokens, expect, e :: stack, handles⟩ = .ok ((), ⟨tokens, e, stack, handles⟩) := rfl

/-! ## Nodes -/

/-- A token that a node of the output begins with. -/
inductive Opens (t : Token) : Prop where
  | scalar (style : Style) (text : String) (h : t.kind = .scalar style text)
  | sequence (h : t.kind = .flowSequenceStart)
  | mapping (h : t.kind = .flowMappingStart)

/-- A token that is no property is content. -/
theorem node_content (inBlock : Bool) (h : Opens t) :
    node inBlock false ⟨t :: tokens, expect, stack, handles⟩ =
      contentAfter inBlock false ⟨none, none, t.start, t.start⟩ .none
        ⟨t :: tokens, expect, stack, handles⟩ := by
  rcases h with ⟨_, _, h⟩ | h | h <;>
    simp [node, written, anchor?, tag?, properties, Properties.none, bind_apply, h]

theorem node_scalar (inBlock : Bool) {style : Style} {text : String}
    (h : t.kind = .scalar style text) :
    node inBlock false ⟨t :: tokens, expect, e :: stack, handles⟩ =
      .ok (⟨.scalar .none style text, t.start, t.stop⟩, ⟨tokens, e, stack, handles⟩) := by
  rw [node_content inBlock (.scalar _ _ h)]
  simp [contentAfter, bind_apply, map_apply, h]

theorem node_sequence (inBlock : Bool) (h : t.kind = .flowSequenceStart) :
    node inBlock false ⟨t :: tokens, expect, stack, handles⟩ =
      .ok (⟨.sequenceStart .none, t.start, t.stop⟩,
      ⟨tokens, .flowEntry true t.start, stack, handles⟩) := by
  rw [node_content inBlock (.sequence h)]
  simp [contentAfter, contentAfter.opened, bind_apply, map_apply, h]

theorem node_mapping (inBlock : Bool) (h : t.kind = .flowMappingStart) :
    node inBlock false ⟨t :: tokens, expect, stack, handles⟩ =
      .ok (⟨.mappingStart .none, t.start, t.stop⟩,
      ⟨tokens, .flowKey true t.start, stack, handles⟩) := by
  rw [node_content inBlock (.mapping h)]
  simp [contentAfter, contentAfter.opened, bind_apply, map_apply, h]

/-! ## Entries -/

variable {first : Bool} {began : Mark}

theorem flowEntry_end (h : t.kind = .flowSequenceEnd) :
    flowEntry first began ⟨t :: tokens, expect, e :: stack, handles⟩ =
      .ok (⟨.sequenceEnd, t.start, t.stop⟩, ⟨tokens, e, stack, handles⟩) := by
  simp [flowEntry, closed, bind_apply, map_apply, h]

theorem flowEntry_node {commas : List Token} (hc : Separates first commas) (h : Opens t) :
    flowEntry first began ⟨commas ++ t :: tokens, expect, stack, handles⟩ =
      node false false ⟨t :: tokens, expect, .flowEntry false began :: stack, handles⟩ := by
  cases first with
  | true =>
      obtain rfl : commas = [] := by simpa [Separates] using hc
      rcases h with ⟨_, _, h⟩ | h | h <;> simp [flowEntry, bind_apply, h]
  | false =>
      obtain ⟨comma, rfl, hcomma⟩ : ∃ t, commas = [t] ∧
        t.kind = .flowEntry := by simpa [Separates] using hc
      rcases h with ⟨_, _, h⟩ | h | h <;> simp [flowEntry, bind_apply, hcomma, h]

theorem flowKey_end (h : t.kind = .flowMappingEnd) :
    flowKey first began ⟨t :: tokens, expect, e :: stack, handles⟩ =
      .ok (⟨.mappingEnd, t.start, t.stop⟩, ⟨tokens, e, stack, handles⟩) := by
  simp [flowKey, closed, bind_apply, map_apply, h]

theorem flowKey_key {commas : List Token} {key : Token} (hc : Separates first commas)
    (hk : key.kind = .key) (h : Opens t) :
    flowKey first began ⟨commas ++ key :: t :: tokens, expect, stack, handles⟩ =
      node false false ⟨t :: tokens, expect, .flowValue began :: stack, handles⟩ := by
  cases first with
  | true =>
      obtain rfl : commas = [] := by simpa [Separates] using hc
      rcases h with ⟨_, _, h⟩ | h | h <;> simp [flowKey, bind_apply, hk, h]
  | false =>
      obtain ⟨comma, rfl, hcomma⟩ : ∃ t, commas = [t] ∧
        t.kind = .flowEntry := by simpa [Separates] using hc
      rcases h with ⟨_, _, h⟩ | h | h <;> simp [flowKey, bind_apply, hcomma, hk, h]

/-- A key that is not recognised is a node without a value. -/
theorem flowKey_node {commas : List Token} (hc : Separates first commas) (h : Opens t) :
    flowKey first began ⟨commas ++ t :: tokens, expect, stack, handles⟩ =
      node false false ⟨t :: tokens, expect, .flowNoValue began :: stack, handles⟩ := by
  cases first with
  | true =>
      obtain rfl : commas = [] := by simpa [Separates] using hc
      rcases h with ⟨_, _, h⟩ | h | h <;> simp [flowKey, bind_apply, h]
  | false =>
      obtain ⟨comma, rfl, hcomma⟩ : ∃ t, commas = [t] ∧
        t.kind = .flowEntry := by simpa [Separates] using hc
      rcases h with ⟨_, _, h⟩ | h | h <;> simp [flowKey, bind_apply, hcomma, h]

theorem flowValue_value {colon : Token} (hc : colon.kind = .value) (h : Opens t) :
    flowValue began ⟨colon :: t :: tokens, expect, stack, handles⟩ =
      node false false ⟨t :: tokens, expect, .flowKey false began :: stack, handles⟩ := by
  rcases h with ⟨_, _, h⟩ | h | h <;> simp [flowValue, bind_apply, hc, h]

end Parse

/-! ## Items -/

/-- The item of an event of a node without an anchor. -/
def Event.item? (e : Event) : Option Item :=
  match e.kind with
  | .scalar ⟨none, tag⟩ style text =>
      some ⟨.scalar ⟨tag, style, text, e.start.offset, e.stop.offset⟩, e.start⟩
  | .sequenceStart ⟨none, tag⟩ => some ⟨.sequenceStart tag, e.start⟩
  | .sequenceEnd => some ⟨.sequenceEnd, e.start⟩
  | .mappingStart ⟨none, tag⟩ => some ⟨.mappingStart tag, e.start⟩
  | .mappingEnd => some ⟨.mappingEnd, e.start⟩
  | _ => none

mutual

/-- The items of a tree. -/
inductive Shows (input : ByteArray) : Tree → List Item → Prop where
  | scalar {t : Tree} {style : Style} {text : String} {start stop : Nat} (mark : Mark)
      (h : Resolve.scalar input ⟨none, style, text, start, stop⟩ = .ok t) :
      Shows input t [⟨.scalar ⟨none, style, text, start, stop⟩, mark⟩]
  | seq {ts : List Tree} {items : List Item} (start stop : Mark) (h : ShowsItems input ts items) :
      Shows input (.seq ts) (⟨.sequenceStart none, start⟩ :: (items ++ [⟨.sequenceEnd, stop⟩]))
  | map {es : Entries} {items : List Item} (start stop : Mark) (h : ShowsEntries input es items) :
      Shows input (.map es) (⟨.mappingStart none, start⟩ :: (items ++ [⟨.mappingEnd, stop⟩]))

inductive ShowsItems (input : ByteArray) : List Tree → List Item → Prop where
  | nil : ShowsItems input [] []
  | cons {t : Tree} {ts : List Tree} {items items' : List Item} (h : Shows input t items)
      (hs : ShowsItems input ts items') : ShowsItems input (t :: ts) (items ++ items')

inductive ShowsEntries (input : ByteArray) : Entries → List Item → Prop where
  | nil : ShowsEntries input [] []
  | cons {name : String} {style : Style} {text : String} {start stop : Nat} {v : Tree}
      {es : Entries} {items items' : List Item}
      (mark : Mark) (hk : Resolve.scalar input ⟨none, style, text, start, stop⟩ = .ok (.str name))
      (hv : Shows input v items) (hs : ShowsEntries input es items') :
      ShowsEntries input ((.str name, v) :: es)
        (⟨.scalar ⟨none, style, text, start, stop⟩, mark⟩ :: (items ++ items'))

end

/-- The events of a tree, no more than its tokens. -/
structure Tells (events : List Event) (tokens : List Token) (items : List Item) : Prop where
  items : events.map Event.item? = items.map some
  length : events.length ≤ tokens.length

theorem Tells.single {e : Event} {i : Item} (h : e.item? = some i) (t : Token) :
    Tells [e] [t] [i] :=
  ⟨congrArg (· :: []) h, Nat.le_refl _⟩

/-- Commas and key indicators have no events of their own. -/
theorem Tells.behind {events : List Event} {tokens : List Token} {items : List Item}
    (h : Tells events tokens items)
    (silent : List Token) : Tells events (silent ++ tokens) items where
  items := h.items
  length := by
    have := h.length
    rw [List.length_append]
    omega

theorem Tells.append {events events' : List Event} {tokens tokens' : List Token}
    {items items' : List Item} (h : Tells events tokens items) (h' : Tells events' tokens' items') :
    Tells (events ++ events') (tokens ++ tokens') (items ++ items') where
  items := by rw [List.map_append, List.map_append, h.items, h'.items]
  length := by
    have := h.length
    have := h'.length
    simp only [List.length_append]
    omega

end BootConfig.Yaml
