import BootConfig.Tree.Entries

/-!
# Parts of a tree

Look-up by name and by index, and statements about all nodes of a tree that are reached through
values. The keys of mappings are not searched.
-/

namespace BootConfig

/-- The text of a key that is a text. -/
def Tree.text? : Tree → Option String
  | str text => some text
  | _ => none

/-- The keys of a mapping that are texts, in order. -/
def Entries.names (es : Entries) : List String := (es.map (·.1)).filterMap Tree.text?

/-- No text is the key of two entries. -/
def Entries.OneEach (es : Entries) : Prop := es.names.Nodup

namespace Tree

/-- The value of a key that is a text, in a mapping. -/
def get? (name : String) : Tree → Option Tree
  | map entries => Entries.find? (.str name) entries
  | _ => none

/-- The element with an index, in a sequence. -/
def item? (index : Nat) : Tree → Option Tree
  | seq items => items[index]?
  | _ => none

mutual

/-- All scalars satisfy `leaf` and the entries of all mappings satisfy `mapping`. -/
def All (leaf : Tree → Prop) (mapping : Entries → Prop) : Tree → Prop
  | seq items => AllItems leaf mapping items
  | map entries => mapping entries ∧ AllEntries leaf mapping entries
  | tagged _ value => All leaf mapping value
  | t => leaf t

def AllItems (leaf : Tree → Prop) (mapping : Entries → Prop) : List Tree → Prop
  | [] => True
  | t :: ts => All leaf mapping t ∧ AllItems leaf mapping ts

def AllEntries (leaf : Tree → Prop) (mapping : Entries → Prop) : Entries → Prop
  | [] => True
  | (_, v) :: es => All leaf mapping v ∧ AllEntries leaf mapping es

end

variable {leaf : Tree → Prop} {mapping : Entries → Prop}

theorem allItems_iff : {ts : List Tree} → AllItems leaf mapping ts ↔ ∀ t ∈ ts, All leaf mapping t
  | [] => by simp [AllItems]
  | t :: ts => by
      have ih : AllItems leaf mapping ts ↔ ∀ t ∈ ts, All leaf mapping t := allItems_iff
      simp [AllItems, ih]

theorem allEntries_iff : {es : Entries} → AllEntries leaf mapping es ↔
    ∀ e ∈ es, All leaf mapping e.2
  | [] => by simp [AllEntries]
  | (k, v) :: es => by
      have ih : AllEntries leaf mapping es ↔ ∀ e ∈ es, All leaf mapping e.2 := allEntries_iff
      simp [AllEntries, ih]

section Imp

variable {leaf' : Tree → Prop} {mapping' : Entries → Prop}

mutual

theorem All.imp (hl : ∀ t, leaf t → leaf' t) (hm : ∀ es, mapping es → mapping' es) : {t : Tree} →
    All leaf mapping t → All leaf' mapping' t
  | .seq _, h => AllItems.imp hl hm h
  | .map es, h => ⟨hm es h.1, AllEntries.imp hl hm h.2⟩
  | .tagged _ value, h => All.imp (t := value) hl hm h
  | .null, h | .bool _, h | .int _, h | .float _, h | .str _, h => hl _ h

theorem AllItems.imp (hl : ∀ t, leaf t → leaf' t) (hm : ∀ es, mapping es → mapping' es) :
    {ts : List Tree} → AllItems leaf mapping ts → AllItems leaf' mapping' ts
  | [], _ => trivial
  | _ :: _, h => ⟨All.imp hl hm h.1, AllItems.imp hl hm h.2⟩

theorem AllEntries.imp (hl : ∀ t, leaf t → leaf' t) (hm : ∀ es, mapping es → mapping' es) :
    {es : Entries} → AllEntries leaf mapping es → AllEntries leaf' mapping' es
  | [], _ => trivial
  | (_, _) :: _, h => ⟨All.imp hl hm h.1, AllEntries.imp hl hm h.2⟩

end

end Imp

mutual

/-- What holds of all mappings in two ways holds of them in both. -/
theorem All.and {mapping' : Entries → Prop} : {t : Tree} → All leaf mapping t →
    All leaf mapping' t → All leaf (fun es => mapping es ∧ mapping' es) t
  | .seq _, h, h' => AllItems.and h h'
  | .map _, h, h' => ⟨⟨h.1, h'.1⟩, AllEntries.and h.2 h'.2⟩
  | .tagged _ value, h, h' => All.and (t := value) h h'
  | .null, h, _ | .bool _, h, _ | .int _, h, _ | .float _, h, _ | .str _, h, _ => h

theorem AllItems.and {mapping' : Entries → Prop} : {ts : List Tree} → AllItems leaf mapping ts →
    AllItems leaf mapping' ts → AllItems leaf (fun es => mapping es ∧ mapping' es) ts
  | [], _, _ => trivial
  | _ :: _, h, h' => ⟨All.and h.1 h'.1, AllItems.and h.2 h'.2⟩

theorem AllEntries.and {mapping' : Entries → Prop} : {es : Entries} → AllEntries leaf mapping es →
    AllEntries leaf mapping' es → AllEntries leaf (fun es => mapping es ∧ mapping' es) es
  | [], _, _ => trivial
  | (_, _) :: _, h, h' => ⟨All.and h.1 h'.1, AllEntries.and h.2 h'.2⟩

end

end Tree

end BootConfig
