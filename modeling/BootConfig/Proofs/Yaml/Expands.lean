import BootConfig.Proofs.Yaml.Keyed

/-!
# What merging means

A key that is written comes before those that a merge key brings, and among these the first mapping
that has a key decides. What is brought is merged in turn.
-/

namespace BootConfig

namespace Entries

variable {es : Entries} {key k v : Tree}

theorem has_of_same (h : has k es = true) (hk : k.same key = true) : has key es = true := by
  rw [has_eq_any, List.any_eq_true] at h ⊢
  obtain ⟨e, he, hek⟩ := h
  exact ⟨e, he, Tree.same_trans _ hek hk⟩

theorem has_putNew : has key (putNew k v es) = (has key es || k.same key) := by
  unfold putNew
  split
  · rename_i hk
    cases hs : k.same key with
    | false => rw [Bool.or_false]
    | true => rw [has_of_same hk hs, Bool.true_or]
  · simp [has_eq_any]

/-- Where the keys are distinct, the first entry with a key is the one that has it. -/
theorem Apart.find?_eq_some (h : es.Apart) : List.find? (fun e => e.1.same key) es = some (key, v) ↔
    (key, v) ∈ es := by
  refine ⟨List.mem_of_find?_eq_some, fun hm => ?_⟩
  obtain ⟨front, back, rfl⟩ := List.append_of_mem hm
  refine List.find?_eq_some_iff_append.mpr ⟨Tree.same_refl key, front, back, rfl, fun e he => ?_⟩
  rw [(List.pairwise_append.mp h).2.2 e he _ List.mem_cons_self]
  rfl

end Entries

namespace Yaml

namespace Merge

open Steps Entries

variable {leaf : Tree → Prop} {es es' : Entries} {key v : Tree} {depth : Nat}

/-! ## The meaning -/

/-- The value of a merge key is a mapping or a list of mappings. -/
def CanMerge (es : Entries) : Prop := ∀ value, (mergeKey, value) ∈ es → ∃ ess, Brings value ess

/-- The value that a key has in a mapping. If it is not written, the first of the mappings with the
key decides. -/
inductive InForce (es : Entries) (key v : Tree) : Prop where
  | written (hm : (key, v) ∈ es) (hk : key ≠ mergeKey)
  | brought {value : Tree} {front back : List Entries} {source : Entries}
      (hnot : ∀ e ∈ es, e.1 ≠ mergeKey → e.1.same key = false)
      (hs : (mergeKey, value) ∈ es) (hb : Brings value (front ++ source :: back))
      (hfront : ∀ s ∈ front, has key s = false) (hm : (key, v) ∈ source)

/-- What merging comes by on its way from a node: elements, contents of tags, and values in
force. -/
inductive Meets : Tree → Tree → Prop where
  | self (t : Tree) : Meets t t
  | element {ts : List Tree} {t u : Tree} (hm : t ∈ ts) (h : Meets t u) : Meets (.seq ts) u
  | value {es : Entries} {key v u : Tree} (hv : InForce es key v) (h : Meets v u) :
      Meets (.map es) u
  | content {name : String} {t u : Tree} (h : Meets t u) : Meets (.tagged name t) u

/-- The second tree is what the first one means: its mappings have the keys in force, and each value
is what the value in force means. -/
inductive Expands : Tree → Tree → Prop where
  | scalar {t : Tree} (h : t.depth = 0) : Expands t t
  | seq {ts ts' : List Tree} (h : List.Forall₂ Expands ts ts') : Expands (.seq ts) (.seq ts')
  | map {es es' : Entries} (hd : es'.Apart)
      (hk : ∀ key, (∃ v', (key, v') ∈ es') ↔ ∃ v, InForce es key v)
      (hv : ∀ key v v', InForce es key v → (key, v') ∈ es' → Expands v v') :
        Expands (.map es) (.map es')
  | tagged {name : String} {t t' : Tree} (h : Expands t t') :
      Expands (.tagged name t) (.tagged name t')

/-! ## One mapping -/

theorem Brings.unique {t : Tree} {ess ess' : List Entries} (h : Brings t ess) (h' : Brings t ess') :
    ess = ess' := by
  cases h with
  | map es => cases h'; rfl
  | seq hts =>
      cases h' with
      | seq hts' => exact List.map_injective_iff.mpr (fun _ _ => Tree.map.inj) (hts.symm.trans hts')

theorem InForce.keyed (h : InForce es key v) (hes : Tree.Keyed leaf (.map es)) : v.Keyed leaf := by
  obtain ⟨_, hvalues⟩ := Tree.keyed_map.mp hes
  cases h with
  | written hm _ => exact (hvalues _ hm).2
  | brought _ hs hb _ hm =>
      exact ((Tree.keyed_map.mp (hb.keyed (hvalues _ hs).2 _ (by simp))).2 _ hm).2

theorem InForce.depth_le (h : InForce es key v) : v.depth ≤ Tree.depthEntries es := by
  cases h with
  | written hm _ => exact depth_le_of_mem hm
  | @brought value front back source _ hs hb _ hm =>
      calc v.depth
        _ ≤ Tree.depthEntries source := depth_le_of_mem hm
        _ ≤ value.depth := (hb.depth_lt (by simp)).le
        _ ≤ Tree.depthEntries es := depth_le_of_mem hs

/-- Of the entries that are added, the first one with a key is kept, and only if the key is new. -/
theorem mem_addNew_iff {added : Entries} :
    (key, v) ∈ addNew es added ↔
      (key, v) ∈ es ∨
        has key es = false ∧ List.find? (fun e => e.1.same key) added = some (key, v) := by
  induction added generalizing es with
  | nil => simp [addNew]
  | cons e added ih =>
      change (key, v) ∈ addNew (putNew e.1 e.2 es) added ↔ _
      rw [ih, mem_putNew_iff, has_putNew, List.find?_cons]
      cases hs : e.1.same key with
      | true =>
          -- whether it is kept or not, no later entry with the key is
          have hkey : (key, v) = e → e.1 = key := by rintro rfl; rfl
          grind
      | false =>
          have hne : (key, v) ≠ e := by
            rintro rfl
            rw [Tree.same_refl] at hs
            cases hs
          simp [hne]

/-- A mapping is merged into what stands beside its merge key. -/
theorem mergeEntries_parts (hes : Tree.Keyed leaf (.map es)) (h : mergeEntries es = .ok es') :
    (∀ value, (mergeKey, value) ∉ es) ∧ es' = es ∨
      ∃ value ess rest, (mergeKey, value) ∈ es ∧ (∀ e, e ∈ rest ↔ e ∈ es ∧ e.1 ≠ mergeKey) ∧
        Brings value ess ∧ es' = addNew rest ess.flatten := by
  rcases mergeEntries_cases h with ⟨hn, rfl⟩ | ⟨value, rest, added, hp, hs, rfl⟩
  · refine Or.inl ⟨fun value hm => ?_, rfl⟩
    exact Entries.find?_str_eq_none.mp hn (Entries.mem_names.mpr ⟨value, hm⟩)
  · obtain ⟨ess, hb, rfl⟩ := sources_eq_ok_iff.mp hs
    have hvalue : (mergeKey, value) ∈ es := hp.mem_iff.mp List.mem_cons_self
    refine Or.inr ⟨value, ess, rest, hvalue, fun e => ?_, hb, rfl⟩
    obtain ⟨hapart, _⟩ := List.pairwise_cons.mp (Tree.keyed_map.mp (hes.perm hp)).1
    constructor
    · refine fun he => ⟨hp.mem_iff.mp (List.mem_cons_of_mem _ he), fun hk => ?_⟩
      have hne := hapart e he
      rw [hk, Tree.same_refl] at hne
      cases hne
    · rintro ⟨he, hk⟩
      refine (List.mem_cons.mp (hp.mem_iff.mpr he)).resolve_left ?_
      rintro rfl
      exact hk rfl

theorem exists_mergeEntries_iff (hes : Tree.Keyed leaf (.map es)) :
    (∃ es', mergeEntries es = .ok es') ↔ CanMerge es := by
  constructor
  · rintro ⟨es', h⟩ value hm
    rcases mergeEntries_parts hes h with ⟨hn, _⟩ | ⟨value', ess, _, hm', _, hb, _⟩
    · exact absurd hm (hn value)
    · rw [(Tree.keyed_map.mp hes).1.value_unique hm hm']
      exact ⟨ess, hb⟩
  · intro h
    unfold mergeEntries
    cases ht : take? mergeKey es with
    | none => exact ⟨es, rfl⟩
    | some p =>
        obtain ⟨value, rest⟩ := p
        obtain ⟨k, hk, hp⟩ := take?_perm ht
        obtain rfl := Tree.same_str_iff.mp hk
        obtain ⟨ess, hb⟩ := h value (hp.mem_iff.mp List.mem_cons_self)
        exact ⟨addNew rest ess.flatten, by simp [sources_eq_ok_iff.mpr ⟨ess, hb, rfl⟩, Except.map]⟩

theorem mergeEntries_self (h : ∀ value, (mergeKey, value) ∉ es) : mergeEntries es = .ok es := by
  have hn : take? mergeKey es = none := by
    rw [take?_eq_none, mergeKey, find?_str_eq_none, mem_names]
    exact not_exists.mpr h
  rw [mergeEntries, hn]

/-- The entries of a merged mapping are those in force. -/
theorem mem_mergeEntries_iff (hes : Tree.Keyed leaf (.map es)) (h : mergeEntries es = .ok es') :
    (key, v) ∈ es' ↔ InForce es key v := by
  obtain ⟨hapart, hvalues⟩ := Tree.keyed_map.mp hes
  rcases mergeEntries_parts hes h with ⟨hn, rfl⟩ | ⟨value, ess, rest, hvalue, hrest, hb, rfl⟩
  · constructor
    · refine fun hm => .written hm ?_
      rintro rfl
      exact hn v hm
    · intro h
      cases h with
      | written hm _ => exact hm
      | brought _ hs _ _ _ => exact absurd hs (hn _)
  · rw [mem_addNew_iff, List.find?_flatten, List.findSome?_eq_some_iff]
    constructor
    · rintro (hm | ⟨hnew, front, source, back, rfl, hfind, hfront⟩)
      · obtain ⟨hm, hk⟩ := (hrest _).mp hm
        exact .written hm hk
      · refine .brought (fun e he hk => ?_) hvalue hb (fun s hs =>
          ?_) (List.mem_of_find?_eq_some hfind)
        · exact has_eq_false.mp hnew e ((hrest e).mpr ⟨he, hk⟩)
        · exact has_eq_false.mpr (by simpa using hfront s hs)
    · intro h
      cases h with
      | written hm hk => exact Or.inl ((hrest _).mpr ⟨hm, hk⟩)
      | @brought value' front back source hnot hs hb' hfront hm =>
          obtain rfl := hapart.value_unique hs hvalue
          obtain rfl := hb.unique hb'
          have hsource := hb.keyed (hvalues _ hvalue).2 source (by simp)
          refine Or.inr ⟨has_eq_false.mpr fun e he => ?_, front, source, back, rfl, ?_,
            fun s hs => ?_⟩
          · obtain ⟨he, hk⟩ := (hrest e).mp he
            exact hnot e he hk
          · exact (Tree.keyed_map.mp hsource).1.find?_eq_some.mpr hm
          · simpa using has_eq_false.mp (hfront s hs)

/-! ## One level of a tree -/

theorem exists_expandTo_map_iff (hes : Tree.Keyed leaf (.map es)) :
    (∃ t', expandTo (depth + 1) (.map es) = .ok t') ↔
    CanMerge es ∧ ∀ key v, InForce es key v → ∃ v', expandTo depth v = .ok v' := by
  rw [← exists_mergeEntries_iff hes]
  constructor
  · rintro ⟨t', h⟩
    obtain ⟨merged, es', hm, rfl, hes'⟩ := expandTo_map_iff.mp h
    refine ⟨⟨merged, hm⟩, fun key v hv => ?_⟩
    obtain ⟨e', _, he'⟩ :=
      exists_forall₂_iff.mp ⟨es', hes'⟩ (key, v) ((mem_mergeEntries_iff hes hm).mpr hv)
    exact ⟨e'.2, he'⟩
  · rintro ⟨⟨merged, hm⟩, hvalues⟩
    -- the values that are merged are those in force
    obtain ⟨es', hes'⟩ : ∃ es' : Entries,
        List.Forall₂ (fun e e' => e'.1 = e.1 ∧ expandTo depth e.2 = .ok e'.2) merged es' := by
      refine exists_forall₂_iff.mpr fun e he => ?_
      obtain ⟨v', hv'⟩ := hvalues e.1 e.2 ((mem_mergeEntries_iff hes hm).mp he)
      exact ⟨(e.1, v'), rfl, hv'⟩
    exact ⟨.map es', expandTo_map_iff.mpr ⟨merged, es', hm, rfl, hes'⟩⟩

theorem exists_expandTo_seq_iff {ts : List Tree} : (∃ t', expandTo (depth + 1) (.seq ts) = .ok t') ↔
    ∀ t ∈ ts, ∃ t', expandTo depth t = .ok t' := by
  rw [← exists_forall₂_iff]
  constructor
  · rintro ⟨t', h⟩
    obtain ⟨ts', _, hts'⟩ := expandTo_seq_iff.mp h
    exact ⟨ts', hts'⟩
  · rintro ⟨ts', hts'⟩
    exact ⟨.seq ts', expandTo_seq_iff.mpr ⟨ts', rfl, hts'⟩⟩

theorem expands_map (hes : Tree.Keyed leaf (.map es)) {merged : Entries}
    (hm : mergeEntries es = .ok merged) {r : Tree → Tree → Prop}
    (hes' : List.Forall₂ (fun e e' => e'.1 = e.1 ∧ r e.2 e'.2) merged es')
    (hr : ∀ key v v', InForce es key v → r v v' → Expands v v') : Expands (.map es) (.map es') := by
  have hapart : merged.Apart := (Tree.keyed_map.mp (mergeEntries_keyed hes hm)).1
  have hkeys : es'.map (·.1) = merged.map (·.1) := map_eq_of_related hes' fun _ _ he => he.1
  refine .map (hapart.of_keys hkeys) (fun key => ?_) fun key v v' hv hv' => ?_
  · have hkey : (∃ v', (key, v') ∈ es') ↔ ∃ v, (key, v) ∈ merged := by
      have hmem : key ∈ es'.map (·.1) ↔ key ∈ merged.map (·.1) := by rw [hkeys]
      simpa using hmem
    simp only [hkey, mem_mergeEntries_iff hes hm]
  · obtain ⟨⟨k, w⟩, hw, rfl, he⟩ := related_of_mem hes' hv'
    obtain rfl := hapart.value_unique ((mem_mergeEntries_iff hes hm).mpr hv) hw
    exact hr _ v v' hv he

/-! ## Trees -/

/-- Expansion gives what a tree means. -/
theorem expandTo_expands (depth : Nat) (t : Tree) {t' : Tree} (hd : t.depth ≤ depth)
    (ht : t.Keyed leaf) (h : expandTo depth t = .ok t') : Expands t t' := by
  revert hd ht
  refine expandTo_induct (motive := fun depth t t' => t.depth ≤ depth → t.Keyed leaf →
      Expands t t') ?leaf ?map ?seq ?tagged depth t h
  case leaf =>
    intro depth t hleaf hd _
    exact .scalar (hleaf hd)
  case map =>
    intro depth es merged es' hm hes' hd ht
    refine expands_map (r := fun t t' => t.depth ≤ depth → t.Keyed leaf → Expands t t') ht hm
      hes' fun key v v' hv he => ?_
    exact he (Nat.le_trans hv.depth_le (Nat.le_of_succ_le_succ hd)) (hv.keyed ht)
  case seq =>
    intro depth ts ts' hts' hd ht
    have hall : ∀ t ∈ ts, t.depth ≤ depth ∧ t.Keyed leaf := fun t hm =>
      ⟨Nat.le_trans (depth_le_of_mem_items hm) (Nat.le_of_succ_le_succ hd),
        Tree.keyedItems_iff.mp ht t hm⟩
    exact .seq (((List.forall₂_and_left ts ts').mpr ⟨hall, hts'⟩).imp fun t t' he =>
      he.2 he.1.1 he.1.2)
  case tagged =>
    intro depth name t t' ht' hd ht
    exact .tagged (ht' (Nat.le_of_succ_le_succ hd) ht)

/-- Expansion fails just where it comes by a mapping that cannot be merged. -/
theorem exists_expandTo_iff : (depth : Nat) → (t : Tree) → t.depth ≤ depth → t.Keyed leaf →
    ((∃ t', expandTo depth t = .ok t') ↔ ∀ es, Meets t (.map es) → CanMerge es)
  | depth + 1, .map es, hd, ht => by
      -- values in force may come from a merged mapping and are no deeper than the entries
      have ih : ∀ key v, InForce es key v →
          ((∃ v', expandTo depth v = .ok v') ↔ ∀ es, Meets v (.map es) → CanMerge es) :=
        fun _ v hv =>
          exists_expandTo_iff depth v (Nat.le_trans hv.depth_le (Nat.le_of_succ_le_succ hd))
          (hv.keyed ht)
      rw [exists_expandTo_map_iff ht]
      constructor
      · rintro ⟨hcan, hvalues⟩ es' hm
        cases hm with
        | self => exact hcan
        | value hv hm => exact (ih _ _ hv).mp (hvalues _ _ hv) es' hm
      · intro h
        exact ⟨h es (.self _), fun key v hv => (ih key v hv).mpr fun es' hm => h es' (.value hv hm)⟩
  | depth + 1, .seq ts, hd, ht => by
      have ih :
          ∀ t ∈ ts, ((∃ t', expandTo depth t = .ok t') ↔ ∀ es, Meets t (.map es) → CanMerge es) :=
        fun t hm =>
        exists_expandTo_iff depth t
          (Nat.le_trans (depth_le_of_mem_items hm) (Nat.le_of_succ_le_succ hd))
          (Tree.keyedItems_iff.mp ht t hm)
      rw [exists_expandTo_seq_iff]
      constructor
      · intro h es hm
        cases hm with
        | element ht hm => exact (ih _ ht).mp (h _ ht) es hm
      · exact fun h t ht => (ih t ht).mpr fun es hm => h es (.element ht hm)
  | depth + 1, .tagged name t, hd, ht => by
      have ih := exists_expandTo_iff depth t (Nat.le_of_succ_le_succ hd) ht
      have hcontent : (∃ t', expandTo (depth + 1) (.tagged name t) = .ok t') ↔
          ∃ t', expandTo depth t = .ok t' := by
        simp [expandTo_tagged_iff]
      rw [hcontent, ih]
      constructor
      · intro h es hm
        cases hm with
        | content hm => exact h es hm
      · exact fun h es hm => h es (.content hm)
  | 0, .seq _, hd, _ | 0, .map _, hd, _ | 0, .tagged .., hd, _ => absurd hd (Nat.not_succ_le_zero _)
  | 0, .null, _, _ | 0, .bool _, _, _ | 0, .int _, _, _ | 0, .float _, _, _ | 0, .str _, _, _
  | _ + 1, .null, _, _ | _ + 1, .bool _, _, _ | _ + 1, .int _, _, _ | _ + 1, .float _, _, _
  | _ + 1, .str _, _, _ =>
      ⟨fun _ _ hm => (by cases hm), fun _ => ⟨_, rfl⟩⟩

theorem expandTo_self : (depth : Nat) → (t : Tree) →
    (∀ es, Meets t (.map es) → ∀ value, (mergeKey, value) ∉ es) → expandTo depth t = .ok t
  | 0, t, _ => by cases t <;> rfl
  | depth + 1, .map es, h => by
      have hn := h es (.self _)
      refine expandTo_map_iff.mpr ⟨es, es, mergeEntries_self hn, rfl,
        List.forall₂_same.mpr fun e he => ⟨rfl, ?_⟩⟩
      have hk : e.1 ≠ mergeKey := fun hk => hn e.2 (hk ▸ he)
      exact expandTo_self depth e.2 fun es' hm => h es' (.value (.written he hk) hm)
  | depth + 1, .seq ts, h =>
      expandTo_seq_iff.mpr ⟨ts, rfl, List.forall₂_same.mpr fun t ht =>
        expandTo_self depth t fun es hm => h es (.element ht hm)⟩
  | depth + 1, .tagged name t, h =>
      expandTo_tagged_iff.mpr ⟨t, rfl, expandTo_self depth t fun es hm => h es (.content hm)⟩
  | _ + 1, .null, _ | _ + 1, .bool _, _ | _ + 1, .int _, _ | _ + 1, .float _, _
  | _ + 1, .str _, _ => rfl

end Merge

/-! ## Documents -/

open Merge

/-- What is read is a document just if every mapping that merging comes by can be merged, and the
document is then what it means. A merge key in a mapping that is itself merged into another one is a
key like any other. -/
theorem readDocument_merges {text : String} {t : Tree} (h : read text = .ok t) :
    ((∃ document, readDocument text = .ok document) ↔ ∀ es, Meets t (.map es) → CanMerge es) ∧
      (∀ fault, readDocument text = .error fault → ∃ f, fault = .yaml (.merge f)) ∧
      (∀ document, readDocument text = .ok document → Expands t document) ∧
      ((∀ es, Meets t (.map es) → ∀ value, (mergeKey, value) ∉ es) →
        readDocument text = .ok t) := by
  have hk := read_keyed h
  have hdocument : ∀ {document}, readDocument text = .ok document ↔
      expand t = .ok document := by simp [readDocument_eq_ok, h]
  refine ⟨?_, fun fault hfault => ?_, fun document hd => ?_, fun hn => ?_⟩
  · rw [← exists_expandTo_iff t.depth t (Nat.le_refl _) hk]
    exact exists_congr fun _ => hdocument
  · unfold readDocument at hfault
    rw [h] at hfault
    cases he : expand t with
    | error f =>
        simp only [he] at hfault
        cases hfault
        exact ⟨f, rfl⟩
    | ok t' =>
        simp only [he] at hfault
        cases hfault
  · exact expandTo_expands t.depth t (Nat.le_refl _) hk (hdocument.mp hd)
  · exact hdocument.mpr (expandTo_self t.depth t hn)

/-- Two mappings with a key in common, of which one merges the other, are merged where one of their
keys is written in another way. -/
theorem readDocument_merges_two : ∃ t document,
    read ("a: &a\n  x: 1\n  yes: 2\nb: &b\n  x: 3\n  z:\n    <<: *a\n" ++
        "c:\n  <<: [*a, *b]\n  true: 4\n") = .ok t ∧
      document.same (.map [(.str "a", .map [(.str "x", .int 1), (.bool true, .int 2)]),
        (.str "b", .map [(.str "x", .int 3),
          (.str "z", .map [(.str "x", .int 1), (.bool true, .int 2)])]),
        (.str "c", .map [(.bool true, .int 4), (.str "x", .int 1),
          (.str "z", .map [(.str "x", .int 1), (.bool true, .int 2)])])]) = true ∧
      Expands t document := by
  have h : (readDocument ("a: &a\n  x: 1\n  yes: 2\nb: &b\n  x: 3\n  z:\n    <<: *a\n" ++
        "c:\n  <<: [*a, *b]\n  true: 4\n")).toOption.any
      (·.same (.map [(.str "a", .map [(.str "x", .int 1), (.bool true, .int 2)]),
        (.str "b", .map [(.str "x", .int 3),
          (.str "z", .map [(.str "x", .int 1), (.bool true, .int 2)])]),
        (.str "c", .map [(.bool true, .int 4), (.str "x", .int 1),
          (.str "z", .map [(.str "x", .int 1), (.bool true, .int 2)])])])) = true := by
    decide +kernel
  obtain ⟨document, hd, hsame⟩ := (Option.any_eq_true _ _).mp h
  have hdocument := Steps.eq_ok_of_toOption hd
  obtain ⟨t, ht, _⟩ := readDocument_eq_ok.mp hdocument
  obtain ⟨_, _, hexpands, _⟩ := readDocument_merges ht
  exact ⟨t, document, ht, hsame, hexpands document hdocument⟩

end Yaml

end BootConfig
