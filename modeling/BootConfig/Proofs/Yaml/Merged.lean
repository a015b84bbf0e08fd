import BootConfig.Config.Convert
import BootConfig.Proofs.Steps
import BootConfig.Proofs.Tree.Entries

/-!
# Trees with their merge keys applied

Merging moves entries about and leaves the scalars as they are. Where no text is the key of two
entries, no merge key is left unless a mapping that was merged into another one has one itself.
-/

namespace BootConfig.Yaml

namespace Merge

open Steps

variable {leaf : Tree → Prop} {mapping mapping' : Entries → Prop}

/-! ## One mapping -/

/-- The mappings that the value of a merge key brings, in order: that value, or its elements. -/
inductive Brings : Tree → List Entries → Prop where
  | map (es : Entries) : Brings (.map es) [es]
  | seq {ts : List Tree} {ess : List Entries} (h : ts = ess.map .map) : Brings (.seq ts) ess

theorem element_eq_ok_iff {t : Tree} {es : Entries} : element t = .ok es ↔ t = .map es := by
  constructor
  · intro h
    cases t with
    | map es' => cases h; rfl
    | _ => cases h
  · rintro rfl
    rfl

theorem elements_eq_ok_iff {ts : List Tree} {ess : List Entries} :
    ts.mapM element = .ok ess ↔ ts = ess.map .map := by
  simp only [mapM_eq_ok_iff, element_eq_ok_iff]
  rw [← List.forall₂_map_right_iff, List.forall₂_eq_eq_eq]

theorem sources_eq_ok_iff {t : Tree} {added : Entries} :
    sources t = .ok added ↔ ∃ ess, Brings t ess ∧ added = ess.flatten := by
  constructor
  · intro h
    cases t with
    | map es =>
        cases h
        exact ⟨[added], .map added, by simp⟩
    | seq ts =>
        obtain ⟨ess, hess, h⟩ := ok_of_then h
        cases h
        exact ⟨ess, .seq (elements_eq_ok_iff.mp hess), rfl⟩
    | _ => cases h
  · rintro ⟨ess, hb, rfl⟩
    cases hb with
    | map es => simp [sources]
    | seq hts => exact then_eq_ok_iff.mpr ⟨ess, elements_eq_ok_iff.mpr hts, rfl⟩

theorem addNew_eq (es added : Entries) :
    ∃ new, addNew es added = es ++ new ∧ ∀ e ∈ new, e ∈ added := by
  induction added generalizing es with
  | nil => exact ⟨[], by simp [addNew], by simp⟩
  | cons e added ih =>
      obtain ⟨new, hnew, hmem⟩ := ih (Entries.putNew e.1 e.2 es)
      have hstep : addNew es (e :: added) = Entries.putNew e.1 e.2 es ++ new := hnew
      unfold Entries.putNew at hstep
      split at hstep
      · exact ⟨new, hstep, fun e he => List.mem_cons_of_mem _ (hmem e he)⟩
      · exact ⟨e :: new, by rw [hstep]; simp, List.forall_mem_cons.mpr
          ⟨List.mem_cons_self, fun e he => List.mem_cons_of_mem _ (hmem e he)⟩⟩

theorem mem_names_addNew {s : String} {es : Entries} (added : Entries) :
    s ∈ (addNew es added).names ↔ s ∈ es.names ∨ s ∈ Entries.names added := by
  induction added generalizing es with
  | nil => simp [addNew, Entries.names]
  | cons e added ih =>
      have hstep : addNew es (e :: added) = addNew (Entries.putNew e.1 e.2 es) added := rfl
      have hnames : Entries.names (e :: added) = Entries.names [e] ++ Entries.names added :=
        Entries.names_append [e] added
      have hnew : s ∈ (Entries.putNew e.1 e.2 es).names ↔ s ∈ es.names ∨ s ∈ Entries.names [e] := by
        unfold Entries.putNew
        split
        · rename_i hk
          refine ⟨Or.inl, fun h => h.elim id fun h => ?_⟩
          obtain ⟨v, hv⟩ := Entries.mem_names.mp h
          rw [← List.mem_singleton.mp hv] at hk
          exact Entries.has_str.mp hk
        · rw [Entries.names_append, List.mem_append]
      rw [hstep, ih, hnew, hnames, List.mem_append, or_assoc]

/-- A mapping either has no merge key, or its merge key is taken out and the entries it stands for
are added. -/
theorem mergeEntries_cases {es es' : Entries} (h : mergeEntries es = .ok es') :
    es.find? mergeKey = none ∧ es' = es ∨
      ∃ value rest added, ((mergeKey, value) :: rest).Perm es ∧ sources value = .ok added ∧
        es' = addNew rest added := by
  unfold mergeEntries at h
  split at h
  · rename_i ht
    cases h
    exact Or.inl ⟨Entries.take?_eq_none.mp ht, rfl⟩
  · rename_i value rest ht
    obtain ⟨k, hk, hp⟩ := Entries.take?_perm ht
    rw [mergeKey] at hk
    rw [Tree.same_str_iff.mp hk] at hp
    cases hs : sources value with
    | error e => rw [hs] at h; cases h
    | ok added => rw [hs] at h; cases h; exact Or.inr ⟨value, rest, added, hp, hs, rfl⟩

/-- An entry of a merged mapping is one of its own, or one of a mapping under its merge key. -/
theorem mergeEntries_origin {es es' : Entries} {e : Tree × Tree} (h : mergeEntries es = .ok es')
    (he : e ∈ es') :
    e ∈ es ∨ ∃ value ess merged, (mergeKey, value) ∈ es ∧ Brings value ess ∧ merged ∈ ess ∧
      e ∈ merged := by
  rcases mergeEntries_cases h with ⟨_, rfl⟩ | ⟨value, rest, added, hp, hs, rfl⟩
  · exact Or.inl he
  · obtain ⟨new, hnew, hadded⟩ := addNew_eq rest added
    rw [hnew] at he
    rcases List.mem_append.mp he with he | he
    · exact Or.inl (hp.mem_iff.mp (List.mem_cons_of_mem _ he))
    · have he := hadded e he
      obtain ⟨ess, hb, rfl⟩ := sources_eq_ok_iff.mp hs
      obtain ⟨merged, hm, he⟩ := List.mem_flatten.mp he
      exact Or.inr ⟨value, ess, merged, hp.mem_iff.mp List.mem_cons_self, hb, hm, he⟩

theorem Brings.all {t : Tree} {ess : List Entries} (hb : Brings t ess) (ht : t.All leaf mapping)
    {es : Entries} (hm : es ∈ ess) : mapping es ∧ Tree.AllEntries leaf mapping es := by
  cases hb with
  | map es' => exact List.mem_singleton.mp hm ▸ ht
  | seq hts => exact Tree.allItems_iff.mp ht (.map es) (hts ▸ List.mem_map_of_mem hm)

theorem mergeEntries_values {es es' : Entries} (hv : Tree.AllEntries leaf mapping es)
    (h : mergeEntries es = .ok es') : Tree.AllEntries leaf mapping es' := by
  refine Tree.allEntries_iff.mpr fun e he => ?_
  rcases mergeEntries_origin h he with he | ⟨value, ess, merged, hvalue, hb, hm, he⟩
  · exact Tree.allEntries_iff.mp hv e he
  · exact Tree.allEntries_iff.mp (hb.all (Tree.allEntries_iff.mp hv _ hvalue) hm).2 e he

/-- A merge key that is left comes from a mapping that was merged. -/
theorem mergeEntries_marked_iff {es es' : Entries} (ho : es.OneEach)
    (h : mergeEntries es = .ok es') :
    "<<" ∈ es'.names ↔
      ∃ value added, es.find? mergeKey = some value ∧ sources value = .ok added ∧
      "<<" ∈ Entries.names added := by
  rcases mergeEntries_cases h with ⟨hn, rfl⟩ | ⟨value, rest, added, hp, hs, rfl⟩
  · refine ⟨fun hm => absurd hm (Entries.find?_str_eq_none.mp hn), fun ⟨value, _, hf, _⟩ => ?_⟩
    rw [hn] at hf
    cases hf
  · have hrest : "<<" ∉ Entries.names rest := by
      have hnodup : Entries.OneEach ((mergeKey, value) :: rest) := ho.perm hp
      simp only [Entries.OneEach, mergeKey, Entries.names, List.map_cons, List.filterMap_cons,
        Tree.text?, List.nodup_cons] at hnodup
      exact hnodup.1
    have hf : es.find? mergeKey = some value :=
      Entries.find?_of_mem ho (hp.mem_iff.mp (by simp [mergeKey]))
    rw [mem_names_addNew, hf]
    constructor
    · exact fun hm => ⟨value, added, rfl, hs, hm.resolve_left hrest⟩
    · rintro ⟨value', added', he, hs', hm⟩
      cases he
      rw [hs] at hs'
      cases hs'
      exact Or.inr hm

/-! ## Depth -/

theorem depth_le_of_mem {es : Entries} {e : Tree × Tree} (h : e ∈ es) :
    e.2.depth ≤ Tree.depthEntries es := by
  induction es with
  | nil => cases h
  | cons a es ih =>
      rw [Tree.depthEntries]
      rcases List.mem_cons.mp h with rfl | h
      · exact Nat.le_max_left _ _
      · exact Nat.le_trans (ih h) (Nat.le_max_right _ _)

theorem depth_le_of_mem_items {ts : List Tree} {t : Tree} (h : t ∈ ts) :
    t.depth ≤ Tree.depthItems ts := by
  induction ts with
  | nil => cases h
  | cons a ts ih =>
      rw [Tree.depthItems]
      rcases List.mem_cons.mp h with rfl | h
      · exact Nat.le_max_left _ _
      · exact Nat.le_trans (ih h) (Nat.le_max_right _ _)

theorem Brings.depth_lt {t : Tree} {ess : List Entries} (hb : Brings t ess) {es : Entries}
    (hm : es ∈ ess) : Tree.depthEntries es < t.depth := by
  cases hb with
  | map es' => exact List.mem_singleton.mp hm ▸ Nat.lt_succ_self _
  | @seq ts ess hts =>
      have hes : (Tree.map es).depth ≤ Tree.depthItems ts :=
        depth_le_of_mem_items (hts ▸ List.mem_map_of_mem hm)
      exact Nat.lt_succ_of_lt hes

theorem depth_mergeEntries {es es' : Entries} {e : Tree × Tree} (h : mergeEntries es = .ok es')
    (he : e ∈ es') : e.2.depth ≤ Tree.depthEntries es := by
  rcases mergeEntries_origin h he with he | ⟨value, ess, merged, hvalue, hb, hm, he⟩
  · exact depth_le_of_mem he
  · exact Nat.le_trans (depth_le_of_mem he)
      (Nat.le_trans (Nat.le_of_lt (hb.depth_lt hm)) (depth_le_of_mem hvalue))

/-! ## One level of a tree -/

section Level

variable {depth : Nat} {es : Entries} {t' : Tree}

theorem expandTo_entry_iff {e e' : Tree × Tree} :
    (do let v ← expandTo depth e.2; return (e.1, v) : Except MergeFault (Tree × Tree)) = .ok e' ↔
      e'.1 = e.1 ∧ expandTo depth e.2 = .ok e'.2 := by
  obtain ⟨k, v⟩ := e
  obtain ⟨k', v'⟩ := e'
  rw [then_eq_ok_iff]
  constructor
  · rintro ⟨w, hw, h⟩
    cases h
    exact ⟨rfl, hw⟩
  · rintro ⟨rfl, hv⟩
    exact ⟨v', hv, rfl⟩

/-- What becomes of a mapping: its merged entries, each value expanded in its place. -/
theorem expandTo_map_iff : expandTo (depth + 1) (.map es) = .ok t' ↔
    ∃ merged es', mergeEntries es = .ok merged ∧ t' = .map es' ∧
    List.Forall₂ (fun e e' => e'.1 = e.1 ∧ expandTo depth e.2 = .ok e'.2) merged es' := by
  rw [expandTo, then_eq_ok_iff]
  constructor
  · rintro ⟨merged, hm, h⟩
    obtain ⟨es', hes', h⟩ := ok_of_then h
    cases h
    exact ⟨merged, es'.reverse, hm, rfl, (mapM_reverse_eq_ok_iff.mp hes').imp fun _ _ =>
      expandTo_entry_iff.mp⟩
  · rintro ⟨merged, es', hm, rfl, hes'⟩
    have hvalues : List.Forall₂ _ merged es'.reverse.reverse :=
      es'.reverse_reverse.symm ▸ hes'.imp fun _ _ => expandTo_entry_iff.mpr
    refine ⟨merged, hm, then_eq_ok_iff.mpr ⟨es'.reverse, mapM_reverse_eq_ok_iff.mpr hvalues, ?_⟩⟩
    exact congrArg (Except.ok ∘ Tree.map) es'.reverse_reverse

theorem expandTo_seq_iff {ts : List Tree} : expandTo (depth + 1) (.seq ts) = .ok t' ↔
    ∃ ts', t' = .seq ts' ∧ List.Forall₂ (fun t t' => expandTo depth t = .ok t') ts ts' := by
  rw [expandTo, then_eq_ok_iff]
  constructor
  · rintro ⟨ts', hts', h⟩
    cases h
    exact ⟨ts'.reverse, rfl, mapM_reverse_eq_ok_iff.mp hts'⟩
  · rintro ⟨ts', rfl, hts'⟩
    refine ⟨ts'.reverse, mapM_reverse_eq_ok_iff.mpr ?_,
      congrArg (Except.ok ∘ Tree.seq) ts'.reverse_reverse⟩
    rwa [List.reverse_reverse]

theorem expandTo_tagged_iff {name : String} {t : Tree} : expandTo (depth + 1)
    (.tagged name t) = .ok t' ↔ ∃ v, t' = .tagged name v ∧ expandTo depth t = .ok v := by
  rw [expandTo, then_eq_ok_iff]
  constructor
  · rintro ⟨v, hv, h⟩
    cases h
    exact ⟨v, rfl, hv⟩
  · rintro ⟨v, rfl, hv⟩
    exact ⟨v, hv, rfl⟩

/-- What holds of a tree that is left as it is, and of each kind of node if it holds of the nodes
right within it. -/
theorem expandTo_induct {motive : Nat → Tree → Tree → Prop}
    (leaf : ∀ depth t, (t.depth ≤ depth → t.depth = 0) → motive depth t t)
    (map : ∀ depth es merged es', mergeEntries es = .ok merged →
      List.Forall₂ (fun e e' => e'.1 = e.1 ∧ motive depth e.2 e'.2) merged es' →
      motive (depth + 1) (.map es) (.map es'))
    (seq : ∀ depth ts ts', List.Forall₂ (motive depth) ts ts' →
      motive (depth + 1) (.seq ts) (.seq ts'))
    (tagged : ∀ depth name t t', motive depth t t' →
      motive (depth + 1) (.tagged name t) (.tagged name t')) :
    (depth : Nat) → (t : Tree) → {t' : Tree} → expandTo depth t = .ok t' → motive depth t t'
  | depth + 1, .map es, _, h => by
      obtain ⟨merged, es', hm, rfl, hes'⟩ := expandTo_map_iff.mp h
      exact map depth es merged es' hm (hes'.imp fun e e' he =>
        ⟨he.1, expandTo_induct leaf map seq tagged depth e.2 he.2⟩)
  | depth + 1, .seq ts, _, h => by
      obtain ⟨ts', rfl, hts'⟩ := expandTo_seq_iff.mp h
      exact seq depth ts ts' (hts'.imp fun t _ => expandTo_induct leaf map seq tagged depth t)
  | depth + 1, .tagged name t, _, h => by
      obtain ⟨t', rfl, ht'⟩ := expandTo_tagged_iff.mp h
      exact tagged depth name t t' (expandTo_induct leaf map seq tagged depth t ht')
  | 0, t, _, h => by cases h; exact leaf 0 t Nat.le_zero.mp
  | depth + 1, .null, _, h | depth + 1, .bool _, _, h | depth + 1, .int _, _, h
  | depth + 1, .float _, _, h | depth + 1, .str _, _, h => by
      cases h; exact leaf _ _ fun _ => rfl

end Level

/-! ## Trees -/

/-- Expansion gives all mappings a property of keys that merging gives to one. -/
theorem expandTo_all (hmerge : ∀ es es', mapping es → mergeEntries es = .ok es' → mapping' es')
    (hkeys : ∀ es es' : Entries, es'.map (·.1) = es.map (·.1) → mapping' es → mapping' es')
    (depth : Nat) (t : Tree) {t' : Tree} (hd : t.depth ≤ depth) (ht : t.All leaf mapping)
    (h : expandTo depth t = .ok t') : t'.All leaf mapping' := by
  revert hd ht
  refine expandTo_induct (motive := fun depth t t' => t.depth ≤ depth → t.All leaf mapping →
      t'.All leaf mapping') ?leaf ?map ?seq ?tagged depth t h
  case leaf =>
    intro depth t hleaf hd ht
    have hscalar := hleaf hd
    cases t with
    | seq | map | tagged => cases hscalar
    | _ => exact ht
  case map =>
    intro depth es merged es' hm hes' hd ht
    have hnames : es'.map (·.1) = merged.map (·.1) := map_eq_of_related hes' fun _ _ he => he.1
    refine ⟨hkeys merged es' hnames (hmerge es merged ht.1 hm),
      Tree.allEntries_iff.mpr fun e' he' => ?_⟩
    obtain ⟨e, he, _, hv⟩ := related_of_mem hes' he'
    have hdepth : e.2.depth ≤ depth :=
      Nat.le_trans (depth_mergeEntries hm he) (Nat.le_of_succ_le_succ hd)
    exact hv hdepth (Tree.allEntries_iff.mp (mergeEntries_values ht.2 hm) e he)
  case seq =>
    intro depth ts ts' hts' hd ht
    refine Tree.allItems_iff.mpr fun t' hm' => ?_
    obtain ⟨t, hm, ht'⟩ := related_of_mem hts' hm'
    have hdepth : t.depth ≤ depth :=
      Nat.le_trans (depth_le_of_mem_items hm) (Nat.le_of_succ_le_succ hd)
    exact ht' hdepth (Tree.allItems_iff.mp ht t hm)
  case tagged =>
    intro depth name t t' ht' hd ht
    exact ht' (Nat.le_of_succ_le_succ hd) ht

/-! ## Merge keys that are left -/

/-- No mapping that stands under the merge key has a merge key itself. -/
def MergesOnce (es : Entries) : Prop :=
  ∀ value added, es.find? mergeKey = some value → sources value = .ok added →
  "<<" ∉ Entries.names added

/-- Where no mapping that is merged has a merge key itself, none is left. -/
theorem expand_unmarked {t t' : Tree} (ht : t.All leaf fun es => es.OneEach ∧ MergesOnce es)
    (h : expand t = .ok t') : t'.All leaf fun es => "<<" ∉ es.names := by
  refine expandTo_all (fun es es' hes hm hmem => ?_) (fun es es' hkeys hn =>
    ?_) t.depth t (Nat.le_refl _) ht h
  · obtain ⟨value, added, hf, hs, hm⟩ := (mergeEntries_marked_iff hes.1 hm).mp hmem
    exact hes.2 value added hf hs hm
  · rwa [Entries.names, hkeys]

/-- The merge key of a mapping that is merged stays. -/
example : expand (.map [(mergeKey, .map [(mergeKey, .map [(.str "k", .int 1)])])]) =
    .ok (.map [(mergeKey, .map [(.str "k", .int 1)])]) := rfl

end Merge

/-! ## Documents -/

theorem readDocument_eq_ok {text : String} {document : Tree} :
    readDocument text = .ok document ↔ ∃ t, read text = .ok t ∧ Merge.expand t = .ok document := by
  unfold readDocument
  cases hr : read text with
  | error f => simp
  | ok t => cases he : Merge.expand t <;> simp [he]

end BootConfig.Yaml
