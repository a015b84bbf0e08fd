import BootConfig.Config.Convert

/-!
# Documents that cannot be written

A document cannot be written just where a key that is reached has no name, and what is said is said
of the first of these keys in document order.
-/

namespace BootConfig

/-! ## Addresses -/

/-- Where a node stands in a tree: the indices of entries and elements on the way to it. -/
abbrev Address := List Nat

/-- Document order: a node stands in front of what is inside of it and of what comes later. -/
abbrev Address.Before (a b : Address) : Prop := List.Lex (· < ·) a b

/-- The keys of the mappings that are reached through values, elements and tags. A key has the
address of its entry, in front of what is in the value. -/
inductive Tree.KeyAt : Tree → Address → Tree → Prop where
  | key {es : Entries} {i : Nat} {e : Tree × Tree} (h : es[i]? = some e) : KeyAt (.map es) [i] e.1
  | value {es : Entries} {i : Nat} {e : Tree × Tree} {a : Address} {k : Tree} (h : es[i]? = some e)
      (hk : KeyAt e.2 a k) : KeyAt (.map es) (i :: a) k
  | item {ts : List Tree} {i : Nat} {t : Tree} {a : Address} {k : Tree} (h : ts[i]? = some t)
      (hk : KeyAt t a k) : KeyAt (.seq ts) (i :: a) k
  | tagged {name : String} {t : Tree} {a : Address} {k : Tree} (hk : KeyAt t a k) :
      KeyAt (.tagged name t) a k

theorem Tree.KeyAt.ne_nil {t k : Tree} {a : Address} (h : t.KeyAt a k) : a ≠ [] := by
  induction h with
  | key _ | value _ _ | item _ _ => simp
  | tagged _ ih => exact ih

namespace Json

/-! ## What comes first -/

section First

variable {α : Type} {s s' : Address → α → Prop} {r r' : Option α}

/-- The first of the things that stand at addresses, if there are any. -/
def IsFirst (s : Address → α → Prop) : Option α → Prop
  | none => ∀ a x, ¬s a x
  | some x => ∃ a, s a x ∧ ∀ a' x', s a' x' → ¬Address.Before a' a

theorem IsFirst.congr (h : IsFirst s r) (hs : ∀ a x, s' a x ↔ s a x) : IsFirst s' r := by
  rwa [show s' = s from funext fun a => funext fun x => propext (hs a x)]

theorem IsFirst.or (h : IsFirst s r) (h' : IsFirst s' r')
    (hle : ∀ a x a' x', s a x → s' a' x' → ¬Address.Before a' a) :
    IsFirst (fun a x => s a x ∨ s' a x) (r.or r') := by
  cases r with
  | none => exact h'.congr fun a x => or_iff_right (h a x)
  | some x =>
      obtain ⟨a, ha, hmin⟩ := h
      exact ⟨a, Or.inl ha, fun a' x' hs => hs.elim (hmin a' x') (hle a x a' x' ha)⟩

theorem IsFirst.inside (h : IsFirst s r) (i : Nat) :
    IsFirst (fun a x => ∃ b, a = i :: b ∧ s b x) r := by
  cases r with
  | none =>
      rintro a x ⟨b, _, hb⟩
      exact h b x hb
  | some x =>
      obtain ⟨b, hb, hmin⟩ := h
      refine ⟨i :: b, ⟨b, rfl, hb⟩, ?_⟩
      rintro _ x' ⟨b', rfl, hb'⟩ hlt
      cases hlt with
      | rel hi => exact absurd hi (Nat.lt_irrefl i)
      | cons hlt => exact hmin b' x' hb' hlt

theorem IsFirst.behind (h : IsFirst s r) (hne : ∀ x, ¬s [] x) :
    IsFirst (fun a x => ∃ i b, a = (i + 1) :: b ∧ s (i :: b) x) r := by
  cases r with
  | none =>
      rintro a x ⟨i, b, _, hb⟩
      exact h (i :: b) x hb
  | some x =>
      obtain ⟨a, ha, hmin⟩ := h
      cases a with
      | nil => exact absurd ha (hne x)
      | cons i b =>
          refine ⟨(i + 1) :: b, ⟨i, b, rfl, ha⟩, ?_⟩
          rintro _ x' ⟨i', b', rfl, hb'⟩ hlt
          refine hmin (i' :: b') x' hb' ?_
          cases hlt with
          | rel hi => exact .rel (Nat.lt_of_succ_lt_succ hi)
          | cons hlt => exact .cons hlt

end First

/-! ## Keys of a tree -/

/-- The keys of a tree that have no name, with their faults. -/
def Faulty (t : Tree) (a : Address) (fault : KeyFault) : Prop :=
  ∃ k, t.KeyAt a k ∧ keyName k = .error fault

variable {t v k : Tree} {ts : List Tree} {es : Entries} {a : Address} {fault : KeyFault}

theorem not_faulty_nil : ¬Faulty t [] fault := fun ⟨_, hk, _⟩ => hk.ne_nil rfl

theorem faulty_tagged {name : String} : Faulty (.tagged name t) a fault ↔ Faulty t a fault := by
  constructor
  · rintro ⟨k, hk, hf⟩
    cases hk with
    | tagged hk => exact ⟨k, hk, hf⟩
  · rintro ⟨k, hk, hf⟩
    exact ⟨k, .tagged hk, hf⟩

theorem faulty_seq_cons : Faulty (.seq (t :: ts)) a fault ↔
    (∃ b, a = 0 :: b ∧ Faulty t b fault) ∨
    ∃ i b, a = (i + 1) :: b ∧ Faulty (.seq ts) (i :: b) fault := by
  constructor
  · rintro ⟨k, hk, hf⟩
    cases hk with
    | @item _ i _ b _ h hk =>
        cases i with
        | zero => cases h; exact Or.inl ⟨b, rfl, k, hk, hf⟩
        | succ i => exact Or.inr ⟨i, b, rfl, k, .item h hk, hf⟩
  · rintro (⟨b, rfl, k, hk, hf⟩ | ⟨i, b, rfl, k, hk, hf⟩)
    · exact ⟨k, .item (i := 0) rfl hk, hf⟩
    · cases hk with
      | item h hk => exact ⟨k, .item (i := i + 1) h hk, hf⟩

theorem faulty_map_cons : Faulty (.map ((k, v) :: es)) a fault ↔
    (a = [0] ∧ keyName k = .error fault) ∨
      (∃ b, a = 0 :: b ∧ Faulty v b fault) ∨
      ∃ i b, a = (i + 1) :: b ∧ Faulty (.map es) (i :: b) fault := by
  constructor
  · rintro ⟨k', hk, hf⟩
    cases hk with
    | @key _ i _ h =>
        cases i with
        | zero => cases h; exact Or.inl ⟨rfl, hf⟩
        | succ i => exact Or.inr (Or.inr ⟨i, [], rfl, _, .key h, hf⟩)
    | @value _ i _ b _ h hk =>
        cases i with
        | zero => cases h; exact Or.inr (Or.inl ⟨b, rfl, k', hk, hf⟩)
        | succ i => exact Or.inr (Or.inr ⟨i, b, rfl, k', .value h hk, hf⟩)
  · rintro (⟨rfl, hf⟩ | ⟨b, rfl, k', hk, hf⟩ | ⟨i, b, rfl, k', hk, hf⟩)
    · exact ⟨k, .key (e := (k, v)) (i := 0) rfl, hf⟩
    · exact ⟨k', .value (e := (k, v)) (i := 0) rfl hk, hf⟩
    · cases hk with
      | key h => exact ⟨_, .key (i := i + 1) h, hf⟩
      | value h hk => exact ⟨k', .value (i := i + 1) h hk, hf⟩

theorem isFirst_key (k : Tree) : IsFirst (fun a fault => a = [0] ∧ keyName k = .error fault)
    (match keyName k with
      | .error fault => some fault
      | .ok _ => none) := by
  cases h : keyName k with
  | error fault =>
      refine ⟨[0], ⟨rfl, rfl⟩, ?_⟩
      rintro _ _ ⟨rfl, _⟩ hlt
      cases hlt with
      | rel hi => exact absurd hi (Nat.lt_irrefl 0)
      | cons hlt => cases hlt
  | ok _ =>
      rintro _ _ ⟨_, he⟩
      cases he

theorem keyFaultEntries?_cons (k v : Tree) (es : Entries) : keyFaultEntries? ((k, v) :: es) =
    (match keyName k with
      | .error fault => some fault
      | .ok _ => none).or ((keyFault? v).or (keyFaultEntries? es)) := by
  rw [keyFaultEntries?]
  cases keyName k <;> rfl

mutual

theorem isFirst_keyFault : (t : Tree) → IsFirst (Faulty t) (keyFault? t)
  | .seq ts => isFirst_keyFaultItems ts
  | .map es => isFirst_keyFaultEntries es
  | .tagged _ t => (isFirst_keyFault t).congr fun _ _ => faulty_tagged
  | .null | .bool _ | .int _ | .float _ | .str _ => fun _ _ ⟨_, hk, _⟩ => by cases hk

theorem isFirst_keyFaultItems : (ts : List Tree) → IsFirst (Faulty (.seq ts)) (keyFaultItems? ts)
  | [] => fun _ _ ⟨_, hk, _⟩ => by
      cases hk with
      | item h _ => cases h
  | t :: ts => by
      refine (((isFirst_keyFault t).inside 0).or ((isFirst_keyFaultItems ts).behind fun _ =>
        not_faulty_nil) ?_).congr fun _ _ => faulty_seq_cons
      rintro _ _ _ _ ⟨b, rfl, _⟩ ⟨i, b', rfl, _⟩ hlt
      cases hlt with
      | rel hi => exact absurd hi (Nat.not_lt_zero _)

theorem isFirst_keyFaultEntries : (es : Entries) → IsFirst (Faulty (.map es)) (keyFaultEntries? es)
  | [] => fun _ _ ⟨_, hk, _⟩ => by
      cases hk with
      | key h | value h _ => cases h
  | (k, v) :: es => by
      have hrest :=
        ((isFirst_keyFault v).inside 0).or ((isFirst_keyFaultEntries es).behind fun _ =>
          not_faulty_nil) (by
        rintro _ _ _ _ ⟨b, rfl, _⟩ ⟨i, b', rfl, _⟩ hlt
        cases hlt with
        | rel hi => exact absurd hi (Nat.not_lt_zero _))
      rw [keyFaultEntries?_cons]
      refine ((isFirst_key k).or hrest ?_).congr fun _ _ => faulty_map_cons
      -- the key stands in front of its value and of the later entries
      rintro _ _ _ _ ⟨rfl, _⟩ (⟨b, rfl, _⟩ | ⟨i, b, rfl, _⟩) hlt
      · cases hlt with
        | rel hi => exact absurd hi (Nat.lt_irrefl 0)
        | cons hlt => cases hlt
      · cases hlt with
        | rel hi => exact absurd hi (Nat.not_lt_zero _)

end

/-! ## Keys without a name -/

/-- The keys that become no member name. -/
inductive Unnamed : Tree → Prop where
  | null : Unnamed .null
  | nan : Unnamed (.float .nan)
  | infinite {negative : Bool} : Unnamed (.float (.infinite negative))
  | seq {items : List Tree} : Unnamed (.seq items)
  | map {entries : Entries} : Unnamed (.map entries)
  | tagged {name : String} {value : Tree} : Unnamed (.tagged name value)

/-- What is said of a key without a name. -/
def complaint : Tree → String
  | .float _ => "float key must be finite (got NaN or +/-inf)"
  | _ => "key must be a string"

theorem unnamed_iff : Unnamed k ↔ ∃ fault, keyName k = .error fault := by
  constructor
  · rintro (_ | _) <;> exact ⟨_, rfl⟩
  · rintro ⟨fault, h⟩
    cases k with
    | null => exact .null
    | seq _ => exact .seq
    | map _ => exact .map
    | tagged _ _ => exact .tagged
    | float x =>
        cases x with
        | nan => exact .nan
        | infinite _ => exact .infinite
        | finite _ _ _ => cases h
    | bool _ | int _ | str _ => cases h

theorem message_of_error (h : keyName k = .error fault) : fault.message = complaint k := by
  cases k with
  | float x => cases x <;> cases h <;> rfl
  | null | seq _ | map _ | tagged _ _ => cases h; rfl
  | bool _ | int _ | str _ => cases h

end Json

/-! ## Documents -/

open Json

theorem writeDocument_eq_error {t : Tree} {f : Fault} :
    writeDocument t = .error f ↔ ∃ fault, keyFault? t = some fault ∧ f = .json fault := by
  unfold writeDocument render
  cases keyFault? t with
  | none => exact iff_of_false nofun nofun
  | some fault =>
      constructor
      · rintro ⟨⟩
        exact ⟨fault, rfl, rfl⟩
      · rintro ⟨_, ⟨⟩, rfl⟩
        rfl

/-- A document cannot be written exactly if some key that is reached has no name. The message is
that of the first of these keys. -/
theorem writeDocument_fails (t : Tree) :
    ((∃ f, writeDocument t = .error f) ↔ ∃ a k, t.KeyAt a k ∧ Unnamed k) ∧
    ∀ f, writeDocument t = .error f → ∃ a k, t.KeyAt a k ∧ Unnamed k ∧
      (∀ a' k', t.KeyAt a' k' → Unnamed k' → ¬Address.Before a' a) ∧
      f.message = "failed to render JSON output: " ++ complaint k := by
  have hfirst := isFirst_keyFault t
  refine ⟨⟨?_, ?_⟩, ?_⟩
  · rintro ⟨f, h⟩
    obtain ⟨fault, hfault, _⟩ := writeDocument_eq_error.mp h
    rw [hfault] at hfirst
    obtain ⟨a, ⟨k, hk, hf⟩, _⟩ := hfirst
    exact ⟨a, k, hk, unnamed_iff.mpr ⟨fault, hf⟩⟩
  · rintro ⟨a, k, hk, hu⟩
    obtain ⟨fault, hf⟩ := unnamed_iff.mp hu
    cases hnone : keyFault? t with
    | none =>
        rw [hnone] at hfirst
        exact absurd ⟨k, hk, hf⟩ (hfirst a fault)
    | some fault' => exact ⟨.json fault', writeDocument_eq_error.mpr ⟨fault', hnone, rfl⟩⟩
  · intro f h
    obtain ⟨fault, hfault, rfl⟩ := writeDocument_eq_error.mp h
    rw [hfault] at hfirst
    obtain ⟨a, ⟨k, hk, hf⟩, hmin⟩ := hfirst
    refine ⟨a, k, hk, unnamed_iff.mpr ⟨fault, hf⟩, fun a' k' hk' hu => ?_, ?_⟩
    · obtain ⟨fault', hf'⟩ := unnamed_iff.mp hu
      exact hmin a' fault' ⟨k', hk', hf'⟩
    · rw [← message_of_error hf]
      rfl

/-- A float that is no number is a value and a key of an earlier mapping, and only the key is
refused. -/
example : writeDocument
    (.map [(.str "a", .seq [.float .nan, .map [(.float .nan, .null)]]), (.null, .null)]) =
    .error (.json .notFinite) := by
  rfl

end BootConfig
