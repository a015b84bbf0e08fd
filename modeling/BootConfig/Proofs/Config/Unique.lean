import BootConfig.Proofs.Config.Embedding
import BootConfig.Proofs.Yaml.Keyed

/-!
# Keys from the reader to the result

A mapping has the distinct keys that it is made of, in the order in which they occur first, each
with its last value. No step of the filter brings a key into a mapping twice, whether it fails or
not.
-/

namespace BootConfig

open Yaml

namespace Contents

variable {leaf : Tree → Prop} {t : Tree}

/-! ## Embedding -/

theorem replaceInline_keyed {contents : Entries} (hs : ∀ s, leaf (.str s))
    (h : Tree.Keyed leaf (.map contents)) (text : String) :
    Tree.Keyed leaf (.map (replaceInline text contents)) := by
  have hkey : sourceKey.Keyed leaf := hs _
  have hvalue : Tree.Keyed leaf (.str (DataUrl.ofText text)) := hs _
  exact (h.put hkey hvalue).drop inlineKey

theorem Embeds.keyed {entry entry' : Tree} (hs : ∀ s, leaf (.str s)) (h : Embeds entry entry')
    (ht : entry.Keyed leaf) : entry'.Keyed leaf := by
  cases h with
  | noContents => exact ht
  | noInline => exact ht
  | replaced hc _ => exact ht.adjust (replaceInline_keyed hs (ht.find? hc) _)

/-- The entries in front of a fault have been changed, the others are as they were. -/
theorem embedFrom_keyed (hs : ∀ s, leaf (.str s)) : (items : List Tree) → (index : Nat) →
    Tree.KeyedItems leaf items → Tree.KeyedItems leaf (embedFrom index items).value
  | [], _, _ => trivial
  | entry :: rest, index, h => by
      cases he : embedEntry index entry with
      | error fault =>
          simp only [embedFrom, he]
          exact h
      | ok r =>
          obtain ⟨change, entry'⟩ := r
          simp only [embedFrom, he]
          exact ⟨(embedEntry_ok he).keyed hs h.1, embedFrom_keyed hs rest _ h.2⟩

theorem within_keyed {key : Tree} {change : Tree → Outcome Tree} {entries : Entries}
    (hc : ∀ t, t.Keyed leaf → (change t).value.Keyed leaf) (h : Tree.Keyed leaf (.map entries)) :
    Tree.Keyed leaf (.map (within key change entries).value) := by
  unfold within
  split
  · exact h
  · rename_i value hf
    exact h.adjust (hc value (h.find? hf))

theorem embedFiles_keyed (hs : ∀ s, leaf (.str s)) (t : Tree) (h : t.Keyed leaf) :
    (embedFiles t).value.Keyed leaf := by
  cases t with
  | seq items => exact embedFrom_keyed hs items 0 h
  | _ => exact h

theorem embedStorage_keyed (hs : ∀ s, leaf (.str s)) (t : Tree) (h : t.Keyed leaf) :
    (embedStorage t).value.Keyed leaf := by
  cases t with
  | map entries => exact within_keyed (embedFiles_keyed hs) h
  | _ => exact h

theorem embed_keyed (hs : ∀ s, leaf (.str s)) (h : t.Keyed leaf) : (embed t).value.Keyed leaf := by
  cases t with
  | map entries => exact within_keyed (embedStorage_keyed hs) h
  | _ => exact h

end Contents

/-! ## The trees of the filter -/

/-- What is read, with and without its merge keys applied, and what embedding makes of such a tree
or leaves of it when it fails. -/
inductive Produced : Tree → Prop where
  | read {text : String} {t : Tree} (h : Yaml.read text = .ok t) : Produced t
  | document {text : String} {t : Tree} (h : readDocument text = .ok t) : Produced t
  | embedded {t : Tree} (h : Produced t) : Produced (Contents.embed t).value

theorem Produced.keyed {t : Tree} (h : Produced t) : t.Keyed Meant := by
  induction h with
  | read h => exact read_keyed h
  | document h => exact readDocument_keyed h
  | embedded _ ih => exact Contents.embed_keyed .str ih

/-- Mappings that are handed over and mappings of a text have their distinct keys in the order in
which they occur first, each with the value it has last, and in no tree of the filter does a mapping
have a key twice, at whatever depth and within keys as well. -/
theorem keys_unique :
    (∀ (b : Buffer) (calls : List (Handed × Handed)) (t : Tree),
      Handed.tree b (.map calls) = .ok t ↔
      ∃ pairs es, Handed.Pairs b calls pairs ∧ t = .map es ∧ Entries.Settles pairs es) ∧
    (∀ (text : String) (t : Tree), read text = .ok t →
      let d := Document.ofText text.toList
      let leaf := fun (c : Scalar) (v : Tree) => Resolve.scalar text.toUTF8 c = .ok v
      d.Means leaf t ∧
        ∀ tag mark items rest t, DenotesContent d leaf (⟨.mappingStart tag, mark⟩ :: items) t rest ↔
          ∃ pairs es, DenotesEntries d leaf items pairs rest ∧ t = Build.named tag (.map es) ∧
            Entries.Settles pairs es) ∧
    ∀ t, Produced t → ∀ es, t.Has (.map es) → Entries.Apart es := by
  refine ⟨fun _ _ _ => Handed.tree_map_iff, fun text t h => ⟨?_, fun _ _ _ _ _ => ?_⟩,
    fun t h es hes => ?_⟩
  · exact read_means h fun _ _ _ hv => hv
  · exact denotesContent_mapping_iff fun _ _ hv => Resolve.scalar_meant hv
  · exact (h.keyed.has hes).1

/-- Equal keys of different spelling. -/
example :
    (read ("\x7b0644: a, yes: b, 420: c, true: d, " ++
        "\x7bx: 1, y: 2\x7d: e, \x7by: 2, x: 1\x7d: f\x7d")).toOption.any fun t =>
    match t with
    | .map [(k₁, v₁), (k₂, v₂), (k₃, v₃)] =>
        k₁.same (.int 420) && v₁.same (.str "c") && k₂.same (.bool true) && v₂.same (.str "d") &&
          k₃.same (.map [(.str "y", .int 2), (.str "x", .int 1)]) && v₃.same (.str "f")
    | _ => false := by decide +kernel

end BootConfig
