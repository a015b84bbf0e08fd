import BootConfig.Proofs.Tree.Keyed
import BootConfig.Proofs.Yaml.Denotes
import BootConfig.Proofs.Yaml.Handed
import BootConfig.Proofs.Yaml.Merged
import BootConfig.Proofs.Yaml.Scalars

/-!
# Documents with distinct keys

The mappings that are read or handed over have distinct keys, also within keys, and merging keeps
them distinct.
-/

namespace BootConfig

open Yaml

variable {leaf : Tree → Prop}

/-! ## Trees that are read -/

theorem Yaml.Meant.keyed {t : Tree} : Meant t → t.Keyed Meant
  | .null => .null
  | .bool b => .bool b
  | .int h => .int h
  | .float h => .float h
  | .str text => .str text

theorem Tree.Keyed.named {t : Tree} (h : t.Keyed leaf) (tag : Option TagText) :
    (Build.named tag t).Keyed leaf := by
  unfold Build.named
  split
  · exact h
  · exact h

namespace Yaml

section Denotes

variable {d : Document} {r : Scalar → Tree → Prop}

mutual

theorem Denotes.keyed (hr : ∀ c v, r c v → v.Keyed leaf) {items rest : List Item} {t : Tree} :
    Denotes d r items t rest → t.Keyed leaf
  | .content h => DenotesContent.keyed hr h
  | .aliasOf h => DenotesContent.keyed hr h

theorem DenotesContent.keyed (hr : ∀ c v, r c v → v.Keyed leaf) {items rest : List Item}
    {t : Tree} : DenotesContent d r items t rest → t.Keyed leaf
  | .scalar h => (hr _ _ h).named _
  | .sequence h =>
      have hseq : Tree.Keyed leaf (.seq _) := DenotesElements.keyed hr h
      hseq.named _
  | .mapping h => (Entries.keyed_ofList (DenotesEntries.keyed hr h)).named _

theorem DenotesElements.keyed (hr : ∀ c v, r c v → v.Keyed leaf) {items rest : List Item}
    {ts : List Tree} : DenotesElements d r items ts rest → Tree.KeyedItems leaf ts
  | .stop => trivial
  | .element h hs => ⟨Denotes.keyed hr h, DenotesElements.keyed hr hs⟩

theorem DenotesEntries.keyed (hr : ∀ c v, r c v → v.Keyed leaf)
    {items rest : List Item} {pairs : Entries} :
    DenotesEntries d r items pairs rest → ∀ p ∈ pairs, p.1.Keyed leaf ∧ p.2.Keyed leaf
  | .stop => by simp
  | .entry hk hv hs =>
      List.forall_mem_cons.mpr ⟨⟨Denotes.keyed hr hk, Denotes.keyed hr hv⟩,
        DenotesEntries.keyed hr hs⟩

end

/-- A mapping that is written has the entries that its pairs settle in. -/
theorem denotesContent_mapping_iff {tag : Option TagText} {mark : Mark} {items rest : List Item}
    {t : Tree} (hr : ∀ c v, r c v → Meant v) :
    DenotesContent d r (⟨.mappingStart tag, mark⟩ :: items) t rest ↔
      ∃ pairs es, DenotesEntries d r items pairs rest ∧ t = Build.named tag (.map es) ∧
        Entries.Settles pairs es := by
  have hsettles : ∀ {pairs}, DenotesEntries d r items pairs rest →
      Entries.Settles pairs (Entries.ofList pairs) := fun h =>
    Entries.settles_ofList (h.keyed fun c v hv => (hr c v hv).keyed)
  constructor
  · intro h
    cases h with
    | mapping h => exact ⟨_, _, h, rfl, hsettles h⟩
  · rintro ⟨pairs, es, h, rfl, hs⟩
    rw [hs.unique (hsettles h)]
    exact .mapping h

end Denotes

theorem read_keyed {text : String} {t : Tree} (h : read text = .ok t) : t.Keyed Meant := by
  have hm : (Document.ofText text.toList).Means (fun _ v => Meant v) t :=
    read_means h fun _ _ _ hv => Resolve.scalar_meant hv
  cases hm with
  | void => exact .null
  | node hd => exact hd.keyed fun _ _ => Meant.keyed

/-! ## Trees that are handed over -/

namespace Handed

variable {b : Buffer}

mutual

theorem Becomes.keyed {h : Handed} {t : BootConfig.Tree} (ht : Becomes b h t) :
    t.Keyed fun _ => True := by
  match ht with
  | .given (.bool _) | .given (.int _) | .given (.wide _) | .given (.float _) => trivial
  | .given (.word _ hw) => cases hw <;> trivial
  | .lent _ | .owned _ | .nothing => trivial
  | .just ht => exact Becomes.keyed ht
  | .seq hts => exact BecomesItems.keyed hts
  | .map hes => exact Entries.keyed_ofList (BecomesEntries.keyed hes)

theorem BecomesItems.keyed {hs : List Handed} {ts : List BootConfig.Tree}
    (h : BecomesItems b hs ts) : BootConfig.Tree.KeyedItems (fun _ => True) ts := by
  match h with
  | .nil => trivial
  | .cons ht hts => exact ⟨Becomes.keyed ht, BecomesItems.keyed hts⟩

theorem BecomesEntries.keyed {hs : List (Handed × Handed)} {pairs : Entries}
    (h : BecomesEntries b hs pairs) :
    ∀ p ∈ pairs, p.1.Keyed (fun _ => True) ∧ p.2.Keyed fun _ => True := by
  match h with
  | .nil => simp
  | .cons hk hv hes =>
      exact List.forall_mem_cons.mpr ⟨⟨Becomes.keyed hk, Becomes.keyed hv⟩,
        BecomesEntries.keyed hes⟩

end

/-- The pairs that are handed over one after the other. -/
def Pairs (b : Buffer) (calls : List (Handed × Handed)) (pairs : Entries) : Prop :=
  List.Forall₂ (fun h p => tree b h.1 = .ok p.1 ∧ tree b h.2 = .ok p.2) calls pairs

theorem BecomesEntries.pairs {hs : List (Handed × Handed)} {pairs : Entries}
    (h : BecomesEntries b hs pairs) : Pairs b hs pairs := by
  match h with
  | .nil => exact .nil
  | .cons hk hv hes => exact .cons ⟨hk.tree_eq, hv.tree_eq⟩ hes.pairs

theorem Pairs.becomes {hs : List (Handed × Handed)} {pairs : Entries} (h : Pairs b hs pairs) :
    BecomesEntries b hs pairs := by
  induction h with
  | nil => exact .nil
  | cons h _ ih => exact .cons (becomes_of_tree _ h.1) (becomes_of_tree _ h.2) ih

/-- A mapping that is handed over has the entries that its pairs settle in. -/
theorem tree_map_iff {calls : List (Handed × Handed)} {t : BootConfig.Tree} :
    tree b (.map calls) = .ok t ↔
      ∃ pairs es, Pairs b calls pairs ∧ t = .map es ∧ Entries.Settles pairs es := by
  constructor
  · intro h
    cases becomes_of_tree _ h with
    | given hg => cases hg
    | map hes => exact ⟨_, _, hes.pairs, rfl, Entries.settles_ofList hes.keyed⟩
  · rintro ⟨pairs, es, h, rfl, hs⟩
    rw [hs.unique (Entries.settles_ofList h.becomes.keyed)]
    exact (Becomes.map h.becomes).tree_eq

end Handed

/-! ## Merging -/

namespace Merge

theorem Brings.keyed {t : Tree} {ess : List Entries} (hb : Brings t ess) (ht : t.Keyed leaf) :
    ∀ es ∈ ess, Tree.Keyed leaf (.map es) := by
  cases hb with
  | map es => exact List.forall_mem_singleton.mpr ht
  | seq hts =>
      subst hts
      exact List.forall_mem_map.mp (Tree.keyedItems_iff.mp ht)

theorem sources_keyed {t : Tree} {added : Entries} (ht : t.Keyed leaf) (h : sources t = .ok added) :
    ∀ e ∈ added, e.1.Keyed leaf ∧ e.2.Keyed leaf := by
  obtain ⟨ess, hb, rfl⟩ := sources_eq_ok_iff.mp h
  intro e he
  obtain ⟨es, hm, he⟩ := List.mem_flatten.mp he
  exact (Tree.keyed_map.mp (hb.keyed ht es hm)).2 e he

theorem addNew_keyed {es added : Entries} (h : Tree.Keyed leaf (.map es))
    (ha : ∀ e ∈ added, e.1.Keyed leaf ∧ e.2.Keyed leaf) :
    Tree.Keyed leaf (.map (addNew es added)) := by
  induction added generalizing es with
  | nil => exact h
  | cons e added ih =>
      obtain ⟨he, ha⟩ := List.forall_mem_cons.mp ha
      exact ih (h.putNew he.1 he.2) ha

theorem mergeEntries_keyed {es es' : Entries} (hes : Tree.Keyed leaf (.map es))
    (h : mergeEntries es = .ok es') : Tree.Keyed leaf (.map es') := by
  rcases mergeEntries_cases h with ⟨_, rfl⟩ | ⟨value, rest, added, hp, hs, rfl⟩
  · exact hes
  · have hperm : Tree.Keyed leaf (.map ((mergeKey, value) :: rest)) := hes.perm hp
    have hvalue : value.Keyed leaf := ((Tree.keyed_map.mp hperm).2 _ List.mem_cons_self).2
    exact addNew_keyed (hperm.sublist (List.sublist_cons_self _ _)) (sources_keyed hvalue hs)

theorem expand_keyed {t t' : Tree} (ht : t.Keyed leaf) (h : expand t = .ok t') : t'.Keyed leaf := by
  refine Tree.Keyed.of_all
    (expandTo_all (fun es es' hes hm => ?_) (fun _ _ => Tree.KeysKeyed.of_keys) t.depth t
      (Nat.le_refl _) ht.all h)
  obtain ⟨ha, hkeyed⟩ := Tree.keyed_map.mp (mergeEntries_keyed hes hm)
  exact ⟨ha, fun e he => (hkeyed e he).1⟩

end Merge

theorem readDocument_keyed {text : String} {document : Tree}
    (h : readDocument text = .ok document) : document.Keyed Meant := by
  obtain ⟨t, ht, he⟩ := readDocument_eq_ok.mp h
  exact Merge.expand_keyed (read_keyed ht) he

/-- A document whose merged mappings have no merge keys has none at all. -/
theorem readDocument_unmarked {text : String} {t document : Tree} (ht : read text = .ok t)
    (hm : t.All (fun _ => True) Merge.MergesOnce) (h : readDocument text = .ok document) :
    document.All (fun _ => True) fun es => "<<" ∉ es.names := by
  obtain ⟨t', ht', he⟩ := readDocument_eq_ok.mp h
  rw [ht] at ht'
  cases ht'
  exact Merge.expand_unmarked ((read_keyed ht).oneEach.and hm) he

end Yaml

end BootConfig
