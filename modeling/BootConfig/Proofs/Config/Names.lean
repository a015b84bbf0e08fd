import BootConfig.Proofs.Config.Contract
import BootConfig.Proofs.Config.Unique
import BootConfig.Proofs.Yaml.Floats

/-!
# Names in the output

Every object of the output has the members of one mapping, in order, or the one member of a tagged
value. Two members have the same name only where a string is a key next to the boolean or the number
that it spells.
-/

namespace BootConfig

open Yaml

namespace Json

/-! ## Names of keys -/

/-- A string that a boolean or a number next to it is spelled like. -/
def Spells (k k' : Tree) : Prop := k'.IsTyped ∧ k = .str (nameOf k')

theorem nameOf_of_ok {k : Tree} {name : String} (h : keyName k = .ok name) : nameOf k = name := by
  rw [nameOf, h]

theorem str_or_isTyped {k : Tree} {name : String} (h : keyName k = .ok name) :
    k = .str name ∨ k.IsTyped := by
  cases k with
  | str text => cases h; exact Or.inl rfl
  | bool _ | int _ | float _ => exact Or.inr trivial
  | _ => cases h

/-- The name of a boolean or a number is read as that key. -/
theorem plain?_name {k : Tree} {name : String} (hk : k.Keyed Meant) (ht : k.IsTyped)
    (h : keyName k = .ok name) : Resolve.plain? name = some k := by
  cases k with
  | bool b => cases h; exact plain?_bool b
  | int n =>
      cases h
      cases hk with
      | int hfits => exact plain?_int hfits
  | float x =>
      cases hk with
      | float hc =>
          cases x with
          | finite negative significand exponent => cases h; exact plain?_float hc
          | _ => cases h
  | _ => cases ht

theorem eq_of_nameOf {k k' : Tree} {name name' : String} (hk : k.Keyed Meant) (hk' : k'.Keyed Meant)
    (hn : keyName k = .ok name) (hn' : keyName k' = .ok name') (h : nameOf k = nameOf k') :
      k = k' ∨ Spells k k' ∨ Spells k' k := by
  rw [nameOf_of_ok hn, nameOf_of_ok hn'] at h
  subst h
  rcases str_or_isTyped hn with hs | ht
  · rcases str_or_isTyped hn' with hs' | ht'
    · exact Or.inl (hs.trans hs'.symm)
    · exact Or.inr (Or.inl ⟨ht', by rw [nameOf_of_ok hn', hs]⟩)
  · rcases str_or_isTyped hn' with hs' | ht'
    · exact Or.inr (Or.inr ⟨ht, by rw [nameOf_of_ok hn, hs']⟩)
    · have hread := plain?_name hk ht hn
      rw [plain?_name hk' ht' hn'] at hread
      exact Or.inl (Option.some.inj hread).symm

/-! ## Mappings -/

theorem imageEntries_eq_map (es : Entries) :
    imageEntries es = es.map fun e => (nameOf e.1, image e.2) := by
  induction es with
  | nil => rfl
  | cons e es ih => rw [imageEntries, ih, List.map_cons]

theorem keyFault?_entry {es : Entries} (h : keyFaultEntries? es = none) {e : Tree × Tree}
    (he : e ∈ es) : (∃ name, keyName e.1 = .ok name) ∧ keyFault? e.2 = none := by
  induction es with
  | nil => cases he
  | cons e' es ih =>
      obtain ⟨k, v⟩ := e'
      obtain ⟨hv, hes⟩ := keyFault?_cons h
      rcases List.mem_cons.mp he with rfl | he
      · refine ⟨?_, hv⟩
        cases hk : keyName k with
        | ok name => exact ⟨name, rfl⟩
        | error fault => simp [keyFaultEntries?, hk] at h
      · exact ih hes he

theorem keyFault?_item {ts : List Tree} (h : keyFaultItems? ts = none) {t : Tree} (ht : t ∈ ts) :
    keyFault? t = none := by
  induction ts with
  | nil => cases ht
  | cons t' ts ih =>
      obtain ⟨ht', hts⟩ := keyFaultItems?_cons h
      rcases List.mem_cons.mp ht with rfl | ht
      · exact ht'
      · exact ih hts ht

/-- The names of the members of an object. -/
def Value.names : Value → List String
  | object members => members.map (·.1)
  | _ => []

/-- The members that the entries of a mapping become. -/
structure Names (es : Entries) (members : Members) : Prop where
  members_eq : members = es.map fun e => (nameOf e.1, image e.2)
  apart : es.Pairwise fun e e' => nameOf e.1 = nameOf e'.1 → Spells e.1 e'.1 ∨ Spells e'.1 e.1
  nodup_iff : (Value.object members).names.Nodup ↔ ∀ e ∈ es, ∀ e' ∈ es, ¬Spells e.1 e'.1

theorem names_of_keyed {es : Entries} (hes : Tree.Keyed Meant (.map es))
    (hf : keyFault? (.map es) = none) : Names es (imageEntries es) := by
  obtain ⟨hapart, hkeyed⟩ := Tree.keyed_map.mp hes
  have happly : es.Pairwise fun e e' => nameOf e.1 = nameOf e'.1 → Spells e.1 e'.1 ∨
      Spells e'.1 e.1 := by
    refine hapart.imp_of_mem fun {e e'} he he' hne heq => ?_
    obtain ⟨⟨name, hn⟩, _⟩ := keyFault?_entry hf he
    obtain ⟨⟨name', hn'⟩, _⟩ := keyFault?_entry hf he'
    refine (eq_of_nameOf (hkeyed e he).1 (hkeyed e' he').1 hn hn' heq).resolve_left fun hk => ?_
    rw [hk, Tree.same_refl] at hne
    cases hne
  have hnames : (Value.object (imageEntries es)).names = es.map fun e => nameOf e.1 := by
    rw [Value.names, imageEntries_eq_map, List.map_map]
    rfl
  refine ⟨imageEntries_eq_map es, happly, ?_⟩
  rw [hnames]
  constructor
  · intro hnodup e he e' he' hs
    have hname : nameOf e.1 = nameOf e'.1 := by
      rw [hs.2]
      rfl
    -- one entry would have both the string and what it spells as its key
    obtain rfl := List.inj_on_of_nodup_map hnodup he he' hname
    have htyped := hs.1
    rw [hs.2] at htyped
    exact htyped
  · intro hnone
    rw [List.Nodup, List.pairwise_map]
    exact happly.imp_of_mem fun he he' h heq => (h heq).elim (hnone _ he _ he') (hnone _ he' _ he)

/-! ## Values within values -/

/-- The values within a value, itself among them. -/
inductive Value.Has : Value → Value → Prop where
  | self (v : Value) : Has v v
  | item {items : List Value} {v w : Value} (hm : v ∈ items) (h : Has v w) : Has (.array items) w
  | member {members : Members} {m : String × Value} {w : Value} (hm : m ∈ members) (h : Has m.2 w) :
      Has (.object members) w

theorem image_eq_array {t : Tree} {items : List Value} (h : image t = .array items) :
    ∃ ts, t = .seq ts ∧ items = ts.map image := by
  cases t with
  | seq ts => cases h; exact ⟨ts, rfl, imageItems_eq_map ts⟩
  | float x =>
      rw [image] at h
      split at h <;> cases h
  | _ => cases h

theorem image_eq_object {t : Tree} {members : Members} (h : image t = .object members) :
    (∃ es, t = .map es ∧ members = imageEntries es) ∨
    ∃ name u, t = .tagged name u ∧ members = [(tagMember name, image u)] := by
  cases t with
  | map es => cases h; exact Or.inl ⟨es, rfl, rfl⟩
  | tagged name u => cases h; exact Or.inr ⟨name, u, rfl, rfl⟩
  | float x =>
      rw [image] at h
      split at h <;> cases h
  | _ => cases h

/-- What is within the image of a tree that can be written is the image of a node that can be
written. -/
theorem image_of_has {value w : Value} (h : value.Has w) {t : Tree} (ht : image t = value)
    (hf : keyFault? t = none) : ∃ n, t.Has n ∧ image n = w ∧ keyFault? n = none := by
  induction h generalizing t with
  | self _ => exact ⟨t, .self t, ht, hf⟩
  | item hm _ ih =>
      obtain ⟨ts, rfl, rfl⟩ := image_eq_array ht
      obtain ⟨u, hu, hv⟩ := List.mem_map.mp hm
      obtain ⟨n, hn, hw, hf⟩ := ih hv (keyFault?_item hf hu)
      exact ⟨n, .item hu hn, hw, hf⟩
  | member hm _ ih =>
      rcases image_eq_object ht with ⟨es, rfl, rfl⟩ | ⟨name, u, rfl, rfl⟩
      · rw [imageEntries_eq_map] at hm
        obtain ⟨e, he, rfl⟩ := List.mem_map.mp hm
        obtain ⟨n, hn, hw, hf⟩ := ih rfl (keyFault?_entry hf he).2
        exact ⟨n, .value he hn, hw, hf⟩
      · obtain rfl := List.mem_singleton.mp hm
        obtain ⟨n, hn, hw, hf⟩ := ih rfl hf
        exact ⟨n, .tagged hn, hw, hf⟩

/-- Every object of a value has the members of a mapping of the tree, or the one member of a tagged
value. -/
def ObjectsOf (t : Tree) (value : Value) : Prop :=
  ∀ members, value.Has (.object members) →
    (∃ es, t.Has (.map es) ∧ Names es members) ∨
    ∃ name u, t.Has (.tagged name u) ∧ members = [(tagMember name, image u)]

theorem objectsOf_image {t : Tree} (ht : t.Keyed Meant) (hf : keyFault? t = none) :
    ObjectsOf t (image t) := by
  intro members h
  obtain ⟨n, hn, himage, hf⟩ := image_of_has h rfl hf
  rcases image_eq_object himage with ⟨es, rfl, rfl⟩ | ⟨name, u, rfl, rfl⟩
  · exact Or.inl ⟨es, hn, names_of_keyed (ht.has hn) hf⟩
  · exact Or.inr ⟨name, u, hn, rfl⟩

end Json

/-! ## Conversion -/

open Json

/-- The objects of a converted text come from the mappings and the tagged values of the embedded
document. -/
theorem convert_objects {input output : String} (h : convert input = .ok output) :
    ∃ document value, readDocument input = .ok document ∧ Json.read? output = some value ∧
      ObjectsOf (Contents.embed document).value value := by
  obtain ⟨document, hd, _, hr⟩ := convert_ok h
  refine ⟨document, image (Contents.embed document).value, hd, read?_render hr, ?_⟩
  exact objectsOf_image (Produced.embedded (.document hd)).keyed (render_eq_ok.mp hr).1

/-- Keys of several kinds, one of them a string that spells no other, and a mapping behind a tag. -/
theorem convert_objects_mixed :
    ∃ output, convert "\x7b2: a, \"3\": !t \x7byes: b, 2.5: [c]\x7d\x7d" = .ok output ∧
      ∃ document value, readDocument "\x7b2: a, \"3\": !t \x7byes: b, 2.5: [c]\x7d\x7d" =
        .ok document ∧ Json.read? output = some value ∧
        ObjectsOf (Contents.embed document).value value := by
  obtain ⟨output, h⟩ :=
    Steps.exists_ok_of_isSome (x := convert "\x7b2: a, \"3\": !t \x7byes: b, 2.5: [c]\x7d\x7d")
      (by decide +kernel)
  exact ⟨output, h, convert_objects h⟩

/-- A number and the string that spells it are two keys, and both members are written. -/
theorem convert_names_twice :
    convert "\x7b1: a, \"1\": b\x7d" = .ok "\x7b\n  \"1\": \"a\",\n  \"1\": \"b\"\n\x7d\n" ∧
      ∃ value, Json.read? "\x7b\n  \"1\": \"a\",\n  \"1\": \"b\"\n\x7d\n" = some value ∧
        ¬value.names.Nodup := by
  have hread : (Json.read? "\x7b\n  \"1\": \"a\",\n  \"1\": \"b\"\n\x7d\n").any
      (fun value => !decide value.names.Nodup) = true := by decide +kernel
  obtain ⟨value, hvalue, hnames⟩ := (Option.any_eq_true _ _).mp hread
  exact ⟨Steps.eq_ok_of_toOption (by decide +kernel), value, hvalue, by simpa using hnames⟩

end BootConfig
