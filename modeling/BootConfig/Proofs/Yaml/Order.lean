import BootConfig.Proofs.Yaml.Keyed
import Mathlib.Data.List.TakeWhile

/-!
# The order of keys

Merging takes the merge key of a mapping out and puts the last key into its place; the keys that it
brings come behind all others. So the keys that are written keep their order just where at most one
of them stands behind the merge key.
-/

namespace BootConfig

/-! ## Entries around a key -/

namespace Entries

variable {es : Entries} {key : Tree}

/-- The entries in front of a key. -/
def before (key : Tree) (es : Entries) : Entries := es.takeWhile fun e => !e.1.same key

/-- The entries behind a key. -/
def behind (key : Tree) (es : Entries) : Entries := (es.dropWhile fun e => !e.1.same key).tail

theorem before_behind (h : has key es = true) :
    ∃ k v, k.same key = true ∧ es = before key es ++ (k, v) :: behind key es := by
  induction es with
  | nil => cases h
  | cons e es ih =>
      obtain ⟨k, v⟩ := e
      cases hk : k.same key with
      | true => exact ⟨k, v, hk, by simp [before, behind, hk]⟩
      | false =>
          obtain ⟨k', v', hk', hes⟩ := ih (by simpa [has, find?, hk] using h)
          refine ⟨k', v', hk', ?_⟩
          simpa [before, behind, hk] using hes

theorem before_behind_of_not_has (h : has key es = false) :
    before key es = es ∧ behind key es = [] := by
  have hall : ∀ e ∈ es, (!e.1.same key) = true := by
    simpa using has_eq_false.mp h
  rw [before, behind, List.takeWhile_eq_self_iff.mpr hall, List.dropWhile_eq_nil_iff.mpr hall]
  exact ⟨rfl, rfl⟩

/-- Where the entry of a key is taken out, the last one stands. -/
theorem take?_eq_some {value : Tree} {rest : Entries} (h : take? key es = some (value, rest)) :
    find? key es = some value ∧ rest = before key es ++ lastFirst (behind key es) := by
  induction es generalizing rest with
  | nil => cases h
  | cons e es ih =>
      obtain ⟨k, v⟩ := e
      rw [take?] at h
      cases hk : k.same key with
      | true =>
          rw [if_pos hk] at h
          cases h
          simp [find?, before, behind, hk]
      | false =>
          rw [if_neg (by simp [hk])] at h
          obtain ⟨⟨value', rest'⟩, ht, he⟩ := Option.map_eq_some_iff.mp h
          cases he
          obtain ⟨hf, hrest⟩ := ih ht
          refine ⟨by simpa [find?, hk] using hf, ?_⟩
          rw [hrest]
          simp [before, behind, hk]

theorem lastFirst_concat (init : Entries) (last : Tree × Tree) :
    lastFirst (init ++ [last]) = last :: init := by
  simp [lastFirst]

theorem lastFirst_of_length (h : es.length ≤ 1) : lastFirst es = es := by
  match es with
  | [] | [_] => rfl
  | _ :: _ :: _ => simp at h

end Entries

/-- In a list without repetitions, what stands in front of an element in one place does so in every
place. -/
theorem mem_of_pair_sublist {α : Type} {front back : List α} {a b : α}
    (hn : (front ++ b :: back).Nodup) (h : [a, b].Sublist (front ++ b :: back)) : a ∈ front := by
  obtain ⟨l, l', hl, ha, hb⟩ := List.cons_sublist_iff.mp h
  have hb : b ∈ l' := List.singleton_sublist.mp hb
  rcases List.append_eq_append_iff.mp hl with ⟨m, hl, hback⟩ | ⟨m, hfront, _⟩
  · cases m with
    | nil => simpa [hl] using ha
    | cons c m =>
        obtain ⟨rfl, rfl⟩ := List.cons.inj hback
        have hnot : b ∉ m ++ l' := (List.nodup_cons.mp (List.nodup_append.mp hn).2.1).1
        exact absurd (List.mem_append_right m hb) hnot
  · rw [hfront]
    exact List.mem_append_left _ ha

/-- An element keeps its place among others only if it is moved over none. -/
theorem eq_nil_of_moved {α : Type} {front init new : List α} {last : α}
    (hn : (front ++ last :: (init ++ new)).Nodup)
    (h : (front ++ (init ++ [last])).Sublist (front ++ last :: (init ++ new))) : init = [] := by
  cases init with
  | nil => rfl
  | cons a init =>
      have hpair : [a, last].Sublist (front ++ (a :: init ++ [last])) :=
        (((List.sublist_append_right init [last]).cons_cons a)).trans
          (List.sublist_append_right _ _)
      have hm : a ∈ front := mem_of_pair_sublist hn (hpair.trans h)
      exact absurd rfl ((List.nodup_append.mp hn).2.2 a hm a (by simp))

/-! ## Paths -/

namespace Tree

/-- A step from a node to one right within it. -/
inductive Step where
  | value (key : Tree)
  | element (index : Nat)
  | content

/-- A path leads from a node to one within it. -/
inductive Leads : List Step → Tree → Tree → Prop where
  | here (t : Tree) : Leads [] t t
  | value {path : List Step} {es : Entries} {key t u : Tree} (hm : (key, t) ∈ es)
      (h : Leads path t u) : Leads (.value key :: path) (.map es) u
  | element {path : List Step} {ts : List Tree} {index : Nat} {t u : Tree}
      (hm : ts[index]? = some t) (h : Leads path t u) : Leads (.element index :: path) (.seq ts) u
  | content {path : List Step} {name : String} {t u : Tree} (h : Leads path t u) :
      Leads (.content :: path) (.tagged name t) u

theorem Leads.unique {leaf : Tree → Prop} {path : List Step} {t u u' : Tree} (h : Leads path t u)
    (h' : Leads path t u') (ht : t.Keyed leaf) : u = u' := by
  induction h generalizing u' with
  | here => cases h'; rfl
  | value hm _ ih =>
      cases h' with
      | value hm' h' =>
          obtain ⟨ha, hk⟩ := keyed_map.mp ht
          obtain rfl := ha.value_unique hm hm'
          exact ih h' (hk _ hm).2
  | element hm _ ih =>
      cases h' with
      | element hm' h' =>
          rw [hm] at hm'
          cases hm'
          exact ih h' (keyedItems_iff.mp ht _ (List.mem_of_getElem? hm))
  | content _ ih => cases h' with | content h' => exact ih h' ht

theorem Leads.has {path : List Step} {t u : Tree} (h : Leads path t u) : t.Has u := by
  induction h with
  | here => exact .self _
  | value hm _ ih => exact .value hm ih
  | element hm _ ih => exact .item (List.mem_of_getElem? hm) ih
  | content _ ih => exact .tagged ih

end Tree

namespace Yaml

namespace Merge

open Steps

variable {leaf : Tree → Prop} {es es' : Entries}

/-! ## One mapping -/

/-- The keys that are written, the merge key left out. -/
def written (es : Entries) : List Tree := (es.map (·.1)).filter fun k => !k.same mergeKey

theorem written_eq (h : es.Apart) :
    written es = (Entries.before mergeKey es ++ Entries.behind mergeKey es).map (·.1) := by
  cases hk : Entries.has mergeKey es with
  | false =>
      obtain ⟨hbefore, hbehind⟩ := Entries.before_behind_of_not_has hk
      rw [hbefore, hbehind, List.append_nil, written, List.filter_eq_self]
      simpa using Entries.has_eq_false.mp hk
  | true =>
      obtain ⟨k, v, hkey, hes⟩ := Entries.before_behind hk
      have hbefore : ∀ e ∈ Entries.before mergeKey es, e.1.same mergeKey = false := fun e he => by
        simpa using List.mem_takeWhile_imp he
      have hbehind : ∀ e ∈ Entries.behind mergeKey es, e.1.same mergeKey = false := fun e he => by
        rw [hes] at h
        have hne := (List.pairwise_cons.mp (List.pairwise_append.mp h).2.1).1 e he
        rw [Tree.same_str_iff.mp hkey] at hne
        cases hsame : e.1.same mergeKey with
        | false => rfl
        | true => rw [Tree.same_str_iff.mp hsame, Tree.same_refl] at hne; cases hne
      rw [written]
      nth_rewrite 1 [hes]
      rw [List.map_append, List.filter_append, List.map_cons,
        List.filter_cons_of_neg (by simp [hkey]), List.map_append,
        List.filter_eq_self.mpr (by simpa using hbefore),
          List.filter_eq_self.mpr (by simpa using hbehind)]

/-- The entries of a merged mapping: the last one in the place of the merge key, and new ones behind
all others. -/
theorem mergeEntries_eq (h : mergeEntries es = .ok es') :
    ∃ new, es' = Entries.before mergeKey es ++ (Entries.behind mergeKey es).lastFirst ++ new ∧
      ∀ e ∈ new, ∃ value added, es.find? mergeKey = some value ∧ sources value = .ok added ∧
        e ∈ added := by
  unfold mergeEntries at h
  split at h
  · rename_i ht
    cases h
    have hn : Entries.has mergeKey es = false := by
      simpa [Entries.has] using Entries.take?_eq_none.mp ht
    obtain ⟨hbefore, hbehind⟩ := Entries.before_behind_of_not_has hn
    exact ⟨[], by rw [hbefore, hbehind]; simp [Entries.lastFirst], by simp⟩
  · rename_i value rest ht
    obtain ⟨hf, hrest⟩ := Entries.take?_eq_some ht
    cases hs : sources value with
    | error e => rw [hs] at h; cases h
    | ok added =>
        rw [hs] at h
        cases h
        obtain ⟨new, hnew, hmem⟩ := addNew_eq rest added
        exact ⟨new, by rw [hnew, hrest], fun e he => ⟨value, added, hf, hs, hmem e he⟩⟩

/-- The written keys keep their order just if there are not two of them behind the merge key. -/
theorem mergeEntries_order (hes : Tree.Keyed leaf (.map es)) (h : mergeEntries es = .ok es') :
    (written es).Sublist (es'.map (·.1)) ↔ (Entries.behind mergeKey es).length ≤ 1 := by
  have hnodup := (mergeEntries_keyed hes h).1.nodup
  obtain ⟨new, rfl, _⟩ := mergeEntries_eq h
  rw [written_eq hes.1]
  constructor
  · intro hsub
    rcases List.eq_nil_or_concat (Entries.behind mergeKey es) with hnil | ⟨init, last, hbehind⟩
    · simp [hnil]
    · -- the last key now stands in front of those that it stood behind
      simp only [hbehind, List.concat_eq_append, Entries.lastFirst_concat, List.map_append,
        List.map_cons, List.map_nil, List.append_assoc, List.cons_append] at hnodup hsub
      have hinit := eq_nil_of_moved hnodup hsub
      simp [hbehind, List.map_eq_nil_iff.mp hinit]
  · intro hshort
    rw [Entries.lastFirst_of_length hshort]
    exact (List.sublist_append_left _ _).map _

/-! ## Trees -/

theorem mem_mergeEntries {e : Tree × Tree} (h : mergeEntries es = .ok es') (he : e ∈ es)
    (hne : e.1.same mergeKey = false) : e ∈ es' := by
  rcases mergeEntries_cases h with ⟨_, rfl⟩ | ⟨value, rest, added, hp, _, rfl⟩
  · exact he
  · obtain ⟨new, hnew, _⟩ := addNew_eq rest added
    rw [hnew]
    rcases List.mem_cons.mp (hp.mem_iff.mpr he) with rfl | he
    · rw [Tree.same_refl] at hne
      cases hne
    · exact List.mem_append_left _ he

/-- A path on which there is no merge key. -/
def IsWritten (path : List Tree.Step) : Prop := ∀ key, .value key ∈ path → key.same mergeKey = false

/-- What such a path leads to is expanded where it is. -/
theorem expandTo_leads {path : List Tree.Step} {t u : Tree} (hp : Tree.Leads path t u)
    (hw : IsWritten path) {depth : Nat} {t' : Tree}
    (hd : t.depth ≤ depth) (h : expandTo depth t = .ok t') :
    ∃ inner u', u.depth ≤ inner ∧ expandTo inner u = .ok u' ∧ Tree.Leads path t' u' := by
  induction hp generalizing depth t' with
  | here t => exact ⟨depth, t', hd, h, .here t'⟩
  | @value path es key t u hm _ ih =>
      obtain ⟨depth, rfl⟩ := Nat.exists_eq_add_one.mpr (Nat.lt_of_lt_of_le (Nat.succ_pos _) hd)
      obtain ⟨merged, es', hmerge, rfl, hvalues⟩ := expandTo_map_iff.mp h
      have hin := mem_mergeEntries hmerge hm (hw key List.mem_cons_self)
      obtain ⟨i, hi⟩ := List.getElem?_of_mem hin
      obtain ⟨⟨key', t'⟩, hi', hkey, hv⟩ := related_getElem? hvalues hi
      obtain ⟨inner', u', hd', hu, hl⟩ := ih (fun key hk => hw key (List.mem_cons_of_mem _ hk))
        (Nat.le_trans (depth_le_of_mem hm) (Nat.le_of_succ_le_succ hd)) hv
      obtain rfl : key' = key := hkey
      exact ⟨inner', u', hd', hu, .value (List.mem_of_getElem? hi') hl⟩
  | @element path ts index t u hm _ ih =>
      obtain ⟨depth, rfl⟩ := Nat.exists_eq_add_one.mpr (Nat.lt_of_lt_of_le (Nat.succ_pos _) hd)
      obtain ⟨ts', rfl, hitems⟩ := expandTo_seq_iff.mp h
      obtain ⟨t', ht', hv⟩ := related_getElem? hitems hm
      obtain ⟨inner, u', hd', hu, hl⟩ := ih (fun key hk => hw key (List.mem_cons_of_mem _ hk))
        (Nat.le_trans (depth_le_of_mem_items (List.mem_of_getElem? hm)) (Nat.le_of_succ_le_succ hd))
          hv
      exact ⟨inner, u', hd', hu, .element ht' hl⟩
  | @content path name t u _ ih =>
      obtain ⟨depth, rfl⟩ := Nat.exists_eq_add_one.mpr (Nat.lt_of_lt_of_le (Nat.succ_pos _) hd)
      obtain ⟨t', rfl, hv⟩ := expandTo_tagged_iff.mp h
      obtain ⟨inner, u', hd', hu, hl⟩ :=
        ih (fun key hk => hw key (List.mem_cons_of_mem _ hk)) (Nat.le_of_succ_le_succ hd) hv
      exact ⟨inner, u', hd', hu, .content hl⟩

end Merge

/-! ## Documents -/

/-- In a document, the mapping in the place of one that is written has the written keys, the last
one moved to the place of the merge key, and then the keys that are merged. The written keys keep
their order just if there are not two of them behind the merge key. -/
theorem readDocument_order {text : String} {t document : Tree} {path : List Tree.Step}
    {es : Entries} (ht : read text = .ok t) (hd : readDocument text = .ok document)
    (hp : Tree.Leads path t (.map es)) (hw : Merge.IsWritten path) :
    ∃ es', (∀ u, Tree.Leads path document u ↔ u = .map es') ∧
      (∃ new, es'.map (·.1) =
        (Entries.before Merge.mergeKey es ++
          (Entries.behind Merge.mergeKey es).lastFirst).map (·.1) ++ new) ∧
      ((Merge.written es).Sublist (es'.map (·.1)) ↔
        (Entries.behind Merge.mergeKey es).length ≤ 1) := by
  obtain ⟨t', ht', he⟩ := readDocument_eq_ok.mp hd
  rw [ht] at ht'
  cases ht'
  obtain ⟨inner, u', hdepth, hu, hl⟩ := Merge.expandTo_leads hp hw (Nat.le_refl _) he
  obtain ⟨inner, rfl⟩ := Nat.exists_eq_add_one.mpr (Nat.lt_of_lt_of_le (Nat.succ_pos _) hdepth)
  obtain ⟨merged, es', hmerge, rfl, hvalues⟩ := Merge.expandTo_map_iff.mp hu
  have hkeys : es'.map (·.1) = merged.map (·.1) := Steps.map_eq_of_related hvalues fun _ _ h => h.1
  refine ⟨es', fun u => ⟨fun h => h.unique hl (readDocument_keyed hd), fun h => h ▸ hl⟩, ?_, ?_⟩
  · obtain ⟨new, hnew, _⟩ := Merge.mergeEntries_eq hmerge
    exact ⟨new.map (·.1), by rw [hkeys, hnew, List.map_append]⟩
  · rw [hkeys]
    exact Merge.mergeEntries_order ((read_keyed ht).has hp.has) hmerge

/-- With two keys behind the merge key, the last one comes first. -/
example : (readDocument "\x7b<<: \x7bb: 1\x7d, b: 2, c: 3\x7d").toOption.any fun t =>
    match t with
    | .map [(k₁, v₁), (k₂, v₂)] =>
        k₁.same (.str "c") && v₁.same (.int 3) && k₂.same (.str "b") && v₂.same (.int 2)
    | _ => false := by decide +kernel

end Yaml

end BootConfig
