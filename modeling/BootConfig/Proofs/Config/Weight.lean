import BootConfig.Proofs.Config.Embedding
import BootConfig.Proofs.Yaml.Merged
import BootConfig.Proofs.Yaml.Shown

/-!
# What gets lost on the way

A measure of trees that depends on their images only. It falls when entries with one key are put
together, when a merge key is applied and when an inline text is embedded, so that a tree that comes
through with its image has nothing of the kind.
-/

namespace BootConfig

open Json Steps

/-! ## Weights -/

/-- A name that embedding takes away counts. -/
def nameWeight (name : String) : Nat := if name = "inline" then 1 else 0

namespace Json.Value

mutual

/-- The number of values in a value, and of the names in it that embedding takes away. -/
def weight : Value → Nat
  | array items => weightItems items + 1
  | object members => weightMembers members + 1
  | _ => 1

def weightItems : List Value → Nat
  | [] => 0
  | v :: vs => weight v + weightItems vs

def weightMembers : Members → Nat
  | [] => 0
  | (name, v) :: ms => nameWeight name + weight v + weightMembers ms

end

end Json.Value

namespace Tree

def weight (t : Tree) : Nat := (image t).weight

theorem weight_pos (t : Tree) : 0 < t.weight := by
  unfold weight
  cases image t <;> simp [Value.weight]

end Tree

/-- The weight of the entries of a mapping. -/
def Entries.weight (es : Entries) : Nat :=
  (es.map fun e => nameWeight (nameOf e.1) + e.2.weight).sum

namespace Tree

theorem weight_map (es : Entries) : weight (.map es) = Entries.weight es + 1 := by
  have h : ∀ es : Entries, Value.weightMembers (imageEntries es) = Entries.weight es := fun es => by
    induction es with
    | nil => rfl
    | cons e es ih => simp [imageEntries, Value.weightMembers, Entries.weight, ih, weight]
  exact congrArg (· + 1) (h es)

theorem weight_seq (ts : List Tree) : weight (.seq ts) = (ts.map weight).sum + 1 := by
  have h : ∀ ts : List Tree, Value.weightItems (imageItems ts) = (ts.map weight).sum := fun ts => by
    induction ts with
    | nil => rfl
    | cons t ts ih => simp [imageItems, Value.weightItems, ih, weight]
  exact congrArg (· + 1) (h ts)

theorem weight_tagged (name : String) (t : Tree) :
    weight (.tagged name t) = nameWeight (tagMember name) + t.weight + 1 := rfl

end Tree

namespace Entries

variable {es es' : Entries} {key v w : Tree}

theorem weight_cons (e : Tree × Tree) (es : Entries) :
    weight (e :: es) = nameWeight (nameOf e.1) + e.2.weight + weight es := rfl

theorem weight_append (es es' : Entries) : weight (es ++ es') = weight es + weight es' := by
  simp [weight]

theorem weight_perm (h : es.Perm es') : weight es = weight es' := (h.map _).sum_eq

/-! ## Entries with one key -/

theorem weight_put (key v : Tree) (es : Entries) :
    weight (put key v es) ≤ weight es + (nameWeight (nameOf key) + v.weight) ∧
      (has key es = true →
        weight (put key v es) < weight es + (nameWeight (nameOf key) + v.weight)) := by
  induction es with
  | nil => exact ⟨by simp [put, weight], fun h => by cases h⟩
  | cons e es ih =>
      obtain ⟨k, u⟩ := e
      have hu := u.weight_pos
      simp only [put, has, find?]
      split
      · simp only [weight_cons]
        constructor
        · omega
        · intro _
          omega
      · simp only [weight_cons]
        obtain ⟨h₁, h₂⟩ := ih
        refine ⟨by omega, fun h => ?_⟩
        have := h₂ h
        omega

theorem weight_adjust (h : find? key es = some v) (w : Tree) :
    weight (adjust key w es) + v.weight = weight es + w.weight := by
  induction es with
  | nil => cases h
  | cons e es ih =>
      obtain ⟨k, u⟩ := e
      simp only [find?] at h
      simp only [adjust]
      split at h
      · rename_i hk
        cases h
        simp only [hk, if_true, weight_cons]
        omega
      · rename_i hk
        have := ih h
        simp only [hk, Bool.false_eq_true, if_false, weight_cons]
        omega

theorem weight_foldl_put : (es acc : Entries) → (∀ e ∈ es, ∃ name, e.1 = .str name) → acc.OneEach →
    weight (es.foldl (fun acc e => put e.1 e.2 acc) acc) ≤ weight acc + weight es ∧
      (weight (es.foldl (fun acc e => put e.1 e.2 acc) acc) = weight acc + weight es →
        (acc ++ es).OneEach)
  | [], acc, _, ho => ⟨Nat.le_refl _, fun _ => by rwa [List.append_nil]⟩
  | (k, v) :: es, acc, hk, ho => by
      obtain ⟨hle, heq⟩ :=
        weight_foldl_put es (put k v acc) (fun e he => hk e (List.mem_cons_of_mem _ he)) (ho.put v)
      obtain ⟨hput, hlt⟩ := weight_put k v acc
      rw [List.foldl_cons, weight_cons]
      refine ⟨by simp only; omega, fun h => ?_⟩
      simp only at h
      cases hh : has k acc with
      | true =>
          have := hlt hh
          omega
      | false =>
          have := heq (by omega)
          rw [put_of_not_has hh] at this
          simpa using this

theorem weight_drop_of_find? {s : String} (h : find? (.str s) es = some v) :
    weight (drop (.str s) es) + nameWeight s + v.weight = weight es := by
  induction es with
  | nil => cases h
  | cons e es ih =>
      obtain ⟨k, u⟩ := e
      simp only [find?] at h
      simp only [drop]
      split at h
      · rename_i hk
        cases h
        obtain rfl := Tree.same_str_iff.mp hk
        simp only [hk, if_true, weight_cons, nameOf, keyName]
        omega
      · rename_i hk
        have := ih h
        simp only [hk, Bool.false_eq_true, if_false, weight_cons]
        omega

end Entries

namespace Tree

theorem keys_gatherEntries (es : Entries) : (gatherEntries es).map (·.1) = es.map (·.1) := by
  induction es with
  | nil => rfl
  | cons e es ih => rw [gatherEntries, List.map_cons, List.map_cons, ih]

mutual

theorem weight_gather : (t : Tree) → t.Standard →
    t.gather.weight ≤ t.weight ∧
    (t.gather.weight = t.weight → t.All (fun _ => True) Entries.OneEach)
  | .null, _ | .bool _, _ | .int _, _ | .float _, _ | .str _, _ => ⟨Nat.le_refl _, fun _ => trivial⟩
  | .seq items, h => by
      obtain ⟨hle, heq⟩ := weight_gatherItems items h
      rw [gather, weight_seq, weight_seq]
      exact ⟨by omega, fun h => heq (by omega)⟩
  | .map es, h => by
      obtain ⟨hle, heq⟩ := weight_gatherEntries es h
      have hkeys := keys_gatherEntries es
      have hk : ∀ e ∈ gatherEntries es, ∃ name, e.1 = .str name := fun e he => by
        have hm : e.1 ∈ es.map (·.1) := hkeys ▸ List.mem_map_of_mem he
        obtain ⟨e', he', hk⟩ := List.mem_map.mp hm
        rw [← hk]
        exact h.keys e' he'
      obtain ⟨hput, hone⟩ := Entries.weight_foldl_put (gatherEntries es) [] hk List.nodup_nil
      have hnil : Entries.weight [] = 0 := rfl
      rw [gather, weight_map, weight_map, Entries.ofList]
      refine ⟨by omega, fun h => ⟨?_, heq (by omega)⟩⟩
      have ho := hone (by omega)
      rwa [List.nil_append, Entries.OneEach, Entries.names, hkeys] at ho
  | .tagged _ _, h => h.elim

theorem weight_gatherItems : (ts : List Tree) → StandardItems ts →
    ((gatherItems ts).map weight).sum ≤ (ts.map weight).sum ∧
      (((gatherItems ts).map weight).sum = (ts.map weight).sum →
        AllItems (fun _ => True) Entries.OneEach ts)
  | [], _ => ⟨Nat.le_refl _, fun _ => trivial⟩
  | t :: ts, h => by
      obtain ⟨hle, heq⟩ := weight_gather t h.1
      obtain ⟨hles, heqs⟩ := weight_gatherItems ts h.2
      simp only [gatherItems, List.map_cons, List.sum_cons]
      exact ⟨by omega, fun h => ⟨heq (by omega), heqs (by omega)⟩⟩

theorem weight_gatherEntries : (es : Entries) → StandardEntries es →
    Entries.weight (gatherEntries es) ≤ Entries.weight es ∧
      (Entries.weight (gatherEntries es) = Entries.weight es →
        AllEntries (fun _ => True) Entries.OneEach es)
  | [], _ => ⟨Nat.le_refl _, fun _ => trivial⟩
  | (k, v) :: es, h => by
      obtain ⟨hle, heq⟩ := weight_gather v h.2.1
      obtain ⟨hles, heqs⟩ := weight_gatherEntries es h.2.2
      simp only [gatherEntries, Entries.weight_cons]
      exact ⟨by omega, fun h => ⟨heq (by omega), heqs (by omega)⟩⟩

end

end Tree

/-! ## Merge keys -/

namespace Yaml.Merge

theorem weight_flatten (ess : List Entries) :
    Entries.weight ess.flatten ≤ ((ess.map Tree.map).map Tree.weight).sum := by
  induction ess with
  | nil => exact Nat.le_refl _
  | cons es ess ih =>
      simp only [List.flatten_cons, Entries.weight_append, List.map_cons, List.sum_cons,
        Tree.weight_map]
      omega

theorem weight_sources {t : Tree} {es : Entries} (h : sources t = .ok es) :
    es.weight < t.weight := by
  obtain ⟨ess, hb, rfl⟩ := sources_eq_ok_iff.mp h
  cases hb with
  | map es =>
      rw [Tree.weight_map, List.flatten_singleton]
      exact Nat.lt_succ_self _
  | seq hts =>
      rw [Tree.weight_seq, hts]
      exact Nat.lt_succ_of_le (weight_flatten _)

theorem weight_addNew (added es : Entries) :
    (addNew es added).weight ≤ es.weight + added.weight := by
  induction added generalizing es with
  | nil => exact Nat.le_refl _
  | cons e added ih =>
      obtain ⟨k, v⟩ := e
      have hnew : (Entries.putNew k v es).weight ≤
          es.weight + (nameWeight (nameOf k) + v.weight) := by
        unfold Entries.putNew
        split
        · omega
        · rw [Entries.weight_append]
          exact Nat.le_refl _
      have := ih (Entries.putNew k v es)
      rw [Entries.weight_cons]
      change (addNew (Entries.putNew k v es) added).weight ≤ _
      simp only
      omega

/-- A mapping without a merge key stays as it is, and any other gets lighter. -/
theorem weight_mergeEntries {es es' : Entries} (h : mergeEntries es = .ok es') :
    es' = es ∧ "<<" ∉ es.names ∨ es'.weight < es.weight := by
  rcases mergeEntries_cases h with ⟨hn, rfl⟩ | ⟨value, rest, added, hp, hs, rfl⟩
  · exact Or.inl ⟨rfl, Entries.find?_str_eq_none.mp hn⟩
  · have hw := Entries.weight_perm hp
    have := weight_addNew added rest
    have := weight_sources hs
    rw [Entries.weight_cons] at hw
    exact Or.inr (by simp only at hw; omega)

/-- What expansion leaves: no more, and if as much, then the same without merge keys. -/
def Shrinks (depth : Nat) (t t' : Tree) : Prop :=
  t'.weight ≤ t.weight ∧ (t'.weight = t.weight → t' = t ∧ (t.depth ≤ depth → t.AllNames (· ≠ "<<")))

theorem shrinks_items {depth : Nat} {ts ts' : List Tree} (h : List.Forall₂ (Shrinks depth) ts ts') :
    (ts'.map Tree.weight).sum ≤ (ts.map Tree.weight).sum ∧
    ((ts'.map Tree.weight).sum = (ts.map Tree.weight).sum →
      ts' = ts ∧ (Tree.depthItems ts ≤ depth → Tree.AllNamesItems (· ≠ "<<") ts)) := by
  induction h with
  | nil => exact ⟨Nat.le_refl _, fun _ => ⟨rfl, fun _ => trivial⟩⟩
  | cons h _ ih =>
      obtain ⟨hle, heq⟩ := h
      obtain ⟨hles, heqs⟩ := ih
      simp only [List.map_cons, List.sum_cons, Tree.depthItems]
      refine ⟨by omega, fun hw => ?_⟩
      obtain ⟨rfl, hn⟩ := heq (by omega)
      obtain ⟨rfl, hns⟩ := heqs (by omega)
      exact ⟨rfl, fun hd => ⟨hn (by omega), hns (by omega)⟩⟩

theorem shrinks_entries {depth : Nat} {es es' : Entries}
    (h : List.Forall₂ (fun e e' : Tree × Tree => e'.1 = e.1 ∧ Shrinks depth e.2 e'.2) es es') :
    es'.weight ≤ es.weight ∧ (es'.weight = es.weight →
      es' = es ∧
      (Tree.depthEntries es ≤ depth → "<<" ∉ es.names → Tree.AllNamesEntries (· ≠ "<<") es)) := by
  induction h with
  | nil => exact ⟨Nat.le_refl _, fun _ => ⟨rfl, fun _ _ => trivial⟩⟩
  | @cons e e' es es' h _ ih =>
      obtain ⟨k, v⟩ := e
      obtain ⟨k', v'⟩ := e'
      obtain ⟨rfl, hle, heq⟩ := h
      obtain ⟨hles, heqs⟩ := ih
      simp only [Entries.weight_cons, Tree.depthEntries] at hle heq ⊢
      refine ⟨by omega, fun hw => ?_⟩
      obtain ⟨rfl, hn⟩ := heq (by omega)
      obtain ⟨rfl, hns⟩ := heqs (by omega)
      refine ⟨rfl, fun hd hnot =>
        ⟨fun name hk hname => ?_, hn (by omega), hns (by omega) fun hm => ?_⟩⟩
      · exact hnot (Entries.mem_names.mpr ⟨v', by rw [← hname, ← hk]; simp⟩)
      · obtain ⟨w, hw⟩ := Entries.mem_names.mp hm
        exact hnot (Entries.mem_names.mpr ⟨w, List.mem_cons_of_mem _ hw⟩)

theorem weight_expandTo (depth : Nat) {t t' : Tree} (h : expandTo depth t = .ok t') :
    Shrinks depth t t' := by
  refine expandTo_induct ?leaf ?map ?seq ?tagged depth t h
  case leaf =>
    intro depth t hleaf
    refine ⟨Nat.le_refl _, fun _ => ⟨rfl, fun hd => ?_⟩⟩
    have hscalar := hleaf hd
    cases t with
    | seq | map | tagged => cases hscalar
    | _ => trivial
  case map =>
    intro depth es merged es' hm hes'
    obtain ⟨hle, heq⟩ := shrinks_entries hes'
    simp only [Shrinks, Tree.weight_map, Tree.depth]
    rcases weight_mergeEntries hm with ⟨rfl, hnot⟩ | hlt
    · refine ⟨by omega, fun hw => ?_⟩
      obtain ⟨hes, hn⟩ := heq (by omega)
      exact ⟨by rw [hes], fun hd => hn (by omega) hnot⟩
    · exact ⟨by omega, fun hw => by omega⟩
  case seq =>
    intro depth ts ts' hts'
    obtain ⟨hle, heq⟩ := shrinks_items hts'
    simp only [Shrinks, Tree.weight_seq, Tree.depth]
    refine ⟨by omega, fun hw => ?_⟩
    obtain ⟨hts, hn⟩ := heq (by omega)
    exact ⟨by rw [hts], fun hd => hn (by omega)⟩
  case tagged =>
    intro depth name t t' ht'
    obtain ⟨hle, heq⟩ := ht'
    simp only [Shrinks, Tree.weight_tagged, Tree.depth]
    refine ⟨by omega, fun hw => ?_⟩
    obtain ⟨rfl, hn⟩ := heq (by omega)
    exact ⟨rfl, fun hd => hn (by omega)⟩

end Yaml.Merge

/-! ## Inline texts -/

namespace Contents

theorem weight_replaceInline (text : String) {contents : Entries} {inline : Tree}
    (h : contents.find? inlineKey = some inline) :
    (replaceInline text contents).weight < contents.weight := by
  have hput := (Entries.weight_put sourceKey (.str (DataUrl.ofText text)) contents).1
  have hfind :
      Entries.find? inlineKey (Entries.put sourceKey (.str (DataUrl.ofText text)) contents) =
      some inline := by
    rw [← h]
    exact Entries.find?_put_of_ne (by decide) _ _
  have hdrop := Entries.weight_drop_of_find? hfind
  have hs : nameWeight (nameOf sourceKey) + (Tree.str (DataUrl.ofText text)).weight = 1 := rfl
  have hi : nameWeight "inline" = 1 := rfl
  have hw := inline.weight_pos
  change (Entries.drop inlineKey
      (Entries.put sourceKey (.str (DataUrl.ofText text)) contents)).weight < _
  unfold inlineKey at hdrop ⊢
  omega

theorem Embeds.weight {entry entry' : Tree} (h : Embeds entry entry') :
    entry'.weight ≤ entry.weight ∧ (entry'.weight = entry.weight → entry' = entry) := by
  cases h with
  | noContents _ => exact ⟨Nat.le_refl _, fun _ => rfl⟩
  | noInline _ _ => exact ⟨Nat.le_refl _, fun _ => rfl⟩
  | @replaced fields contents text hc hi =>
      have ha := Entries.weight_adjust hc (.map (replaceInline text contents))
      have hr := weight_replaceInline text hi
      simp only [Tree.weight_map] at ha ⊢
      exact ⟨by omega, fun h => by omega⟩

theorem EmbedsAll.weight {items items' : List Tree} (h : EmbedsAll items items') :
    (items'.map Tree.weight).sum ≤ (items.map Tree.weight).sum ∧
      ((items'.map Tree.weight).sum = (items.map Tree.weight).sum → items' = items) := by
  induction h with
  | nil => exact ⟨Nat.le_refl _, fun _ => rfl⟩
  | cons h _ ih =>
      obtain ⟨hle, heq⟩ := h.weight
      obtain ⟨hles, heqs⟩ := ih
      simp only [List.map_cons, List.sum_cons]
      exact ⟨by omega, fun hw => by rw [heq (by omega), heqs (by omega)]⟩

/-- Embedding makes a document lighter unless it changes nothing. -/
theorem Embedded.weight {document document' : Tree} (h : Embedded document document') :
    document'.weight ≤ document.weight ∧
    (document'.weight = document.weight → document' = document) := by
  cases h with
  | noStorage _ => exact ⟨Nat.le_refl _, fun _ => rfl⟩
  | noFiles _ _ => exact ⟨Nat.le_refl _, fun _ => rfl⟩
  | @files root storage items items' hs hf h =>
      obtain ⟨hle, heq⟩ := h.weight
      have hroot := Entries.weight_adjust hs (.map (storage.adjust filesKey (.seq items')))
      have hstorage := Entries.weight_adjust hf (.seq items')
      simp only [Tree.weight_map, Tree.weight_seq] at hroot hstorage ⊢
      refine ⟨by omega, fun hw => ?_⟩
      rw [heq (by omega), Entries.adjust_of_find? hf, Entries.adjust_of_find? hs]

end Contents

end BootConfig
