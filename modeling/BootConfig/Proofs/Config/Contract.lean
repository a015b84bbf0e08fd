import BootConfig.Proofs.Config.Embedding
import BootConfig.Proofs.Json.Members
import BootConfig.Proofs.Text.Canonical
import BootConfig.Proofs.Yaml.Keyed

/-!
# The contract of a conversion

What a converted text says, in terms of the document it comes from: no inline contents are left,
each of them stands coded in the source of its file, and all else is the document as it is written
without embedding.
-/

namespace BootConfig

open Contents Json Yaml

/-- The value of the output for a document. -/
structure Converts (document : Tree) (value : Value) : Prop where
  filesOk : value.FilesOk
  /-- An inline text is the payload of the source in its place. -/
  embedded : ∀ i entry text, document.file? i = some entry → entry.inline? = some (.str text) →
    ∃ payload, (value.file? i).bind Value.source? = some (.str ("data:," ++ payload)) ∧
      (∀ c ∈ payload.toList, c.toNat < 128) ∧
      Percent.decode? payload.toList = some text.toUTF8.data.toList
  /-- An entry without inline contents is as it is without embedding. -/
  kept : ∀ i entry, document.file? i = some entry → entry.inline? = none →
    value.file? i = some (image entry) ∧ (image document).file? i = some (image entry)
  /-- No entry is added. -/
  absent : ∀ i, document.file? i = none → value.file? i = none
  outside : value.withoutFiles = (image document).withoutFiles

/-! ## Names in place -/

/-- No text is a key twice. -/
abbrev Distinct (t : Tree) : Prop := t.All (fun _ => True) Entries.OneEach

theorem readDocument_distinct {text : String} {document : Tree}
    (h : readDocument text = .ok document) : Distinct document :=
  (readDocument_keyed h).oneEach

section Members

variable {name : String} {es : Entries} {value : Value}

theorem eq_of_hasMember {t : Tree} (hw : isWord name = true) (h : es.OneEach)
    (ht : es.find? (.str name) = some t)
    (hm : (image (.map es)).HasMember name value) : value = image t := by
  obtain ⟨t', ht', rfl⟩ := hasMember_image hw hm
  rw [Entries.find?_of_mem h ht'] at ht
  cases ht
  rfl

theorem not_hasMember (hw : isWord name = true) (h : es.OneEach)
    (hn : es.find? (.str name) = none) : ¬ (image (.map es)).HasMember name value := fun hm => by
  obtain ⟨t, ht, _⟩ := hasMember_image hw hm
  rw [Entries.find?_of_mem h ht] at hn
  cases hn

end Members

namespace Contents

theorem Embeds.entryOk {entry entry' : Tree} (hd : Distinct entry) (h : Embeds entry entry') :
    (image entry').EntryOk := by
  cases h with
  | noContents hc => exact ⟨trivial, fun _ hm => absurd hm (not_hasMember rfl hd.1 hc)⟩
  | noInline hc hi =>
      refine ⟨trivial, fun value hm => ?_⟩
      obtain rfl := eq_of_hasMember rfl hd.1 hc hm
      exact ⟨trivial, fun _ => not_hasMember rfl (hd.find? hc).1 hi⟩
  | @replaced fields contents text hc hi =>
      refine ⟨trivial, fun value hm => ?_⟩
      obtain rfl := eq_of_hasMember rfl (hd.1.adjust _ _) (Entries.find?_adjust hc _) hm
      refine ⟨trivial, fun inline hm => ?_⟩
      obtain ⟨t, ht, _⟩ := hasMember_image rfl hm
      exact inline_not_mem (hd.find? hc).1 text (Entries.mem_names.mpr ⟨t, ht⟩)

theorem Embedded.filesOk {document document' : Tree} (hd : Distinct document)
    (h : Embedded document document') : (image document').FilesOk := by
  cases h with
  | @noStorage root hs =>
      exact ⟨trivial, fun _ hm => absurd hm (not_hasMember rfl hd.1 hs), fun _ _ hm =>
        absurd hm (not_hasMember rfl hd.1 hs)⟩
  | @noFiles root storage hs hf =>
      have hstorage : ∀ value, (image (.map root)).HasMember "storage" value →
          value = image (.map storage) :=
        fun _ => eq_of_hasMember rfl hd.1 hs
      refine ⟨trivial, fun value hm => by rw [hstorage value hm]; trivial,
        fun value files hm hmf => ?_⟩
      rw [hstorage value hm] at hmf
      exact absurd hmf (not_hasMember rfl (hd.find? hs).1 hf)
  | @files root storage items items' hs hf h =>
      have hstorage : ∀ value,
          (image (.map (root.adjust storageKey
            (.map (storage.adjust filesKey (.seq items')))))).HasMember "storage" value →
          value = image (.map (storage.adjust filesKey (.seq items'))) :=
        fun _ => eq_of_hasMember rfl (hd.1.adjust _ _) (Entries.find?_adjust hs _)
      refine ⟨trivial, fun value hm => by rw [hstorage value hm]; trivial,
        fun value files hm hmf => ?_⟩
      rw [hstorage value hm] at hmf
      obtain rfl := eq_of_hasMember rfl ((hd.find? hs).1.adjust _ _) (Entries.find?_adjust hf _) hmf
      refine ⟨_, rfl, fun value hm => ?_⟩
      rw [imageItems_eq_map] at hm
      obtain ⟨entry', hm', rfl⟩ := List.mem_map.mp hm
      obtain ⟨entry, hm, he⟩ := h.mem entry' hm'
      have hitems : Distinct (.seq items) := (hd.find? hs).find? hf
      exact he.entryOk (Tree.allItems_iff.mp hitems entry hm)

theorem Embedded.withoutFiles {document document' : Tree} (h : Embedded document document') :
    (image document').withoutFiles = (image document).withoutFiles := by
  cases h with
  | noStorage _ => rfl
  | noFiles _ _ => rfl
  | files hs hf _ => exact update_adjust hs (update_adjust hf rfl)

theorem Embedded.converts {document document' : Tree} (hd : Distinct document)
    (h : Embedded document document') : Converts document (image document') where
  filesOk := h.filesOk hd
  embedded i entry text hf hi := by
    rcases h.file? i with ⟨hn, _⟩ | ⟨entry₀, entry', he, he', hem⟩
    · rw [hn] at hf; cases hf
    · rw [he] at hf
      cases hf
      refine ⟨DataUrl.payload text, ?_, ?_, ?_⟩
      · rw [file?_image, he', Option.map_some, Option.bind_some, source?_image, hem.inline?_text hi]
        rfl
      · rw [DataUrl.toList_payload]
        exact Percent.ascii_encode _
      · rw [DataUrl.toList_payload]
        exact Percent.decode?_encode _
  kept i entry hf hi := by
    rcases h.file? i with ⟨hn, _⟩ | ⟨entry₀, entry', he, he', hem⟩
    · rw [hn] at hf; cases hf
    · rw [he] at hf
      cases hf
      rw [file?_image, file?_image, he, he', hem.inline?_none hi]
      exact ⟨rfl, rfl⟩
  absent i hf := by
    rcases h.file? i with ⟨_, hn⟩ | ⟨entry₀, entry', he, _, _⟩
    · rw [file?_image, hn, Option.map_none]
    · rw [he] at hf; cases hf
  outside := h.withoutFiles

end Contents

/-! ## Conversion -/

theorem writeDocument_ok {document : Tree} {text : String} (h : writeDocument document = .ok text) :
    render document = .ok text := by
  unfold writeDocument at h
  cases hr : render document with
  | error f => rw [hr] at h; cases h
  | ok s => rw [hr] at h; cases h; rfl

/-- What is written is the document that has been read, embedded without a fault. -/
theorem convert_ok {input output : String} (h : convert input = .ok output) :
    ∃ document, readDocument input = .ok document ∧ (embed document).fault = none ∧
      render (embed document).value = .ok output := by
  unfold convert Conversion.ofText at h
  split at h
  · cases h
  · rename_i document hd
    unfold Conversion.ofOutcome at h
    cases hf : (embed document).fault with
    | some f => simp only [hf] at h; cases h
    | none =>
        simp only [hf] at h
        exact ⟨document, hd, hf, writeDocument_ok h⟩

/-- A converted text is read as the JSON value that the contract asks for; the text of the document
without embedding, where it can be written, is read as the document's image. -/
theorem convert_converts {input output : String} (h : convert input = .ok output) :
    ∃ document value, readDocument input = .ok document ∧ Json.read? output = some value ∧
      Converts document value ∧ ∀ shown, writeDocument document = .ok shown →
        Json.read? shown = some (image document) := by
  obtain ⟨document, hd, hf, hr⟩ := convert_ok h
  refine ⟨document, image (embed document).value, hd, read?_render hr, ?_, fun shown hs => ?_⟩
  · exact (embed_ok hf).converts (readDocument_distinct hd)
  · exact read?_render (writeDocument_ok hs)

/-- An entry with merged contents, a source to be overwritten and a letter beyond ASCII, and one
without contents. -/
theorem convert_converts_merged :
    ∃ input output,
      input = "b: &b \x7binline: \"\u00e9\", source: old\x7d\nstorage:\n" ++
        "  files: [contents: \x7b<<: *b\x7d, path: /b]\n" ∧
      output =
        "\x7b\n  \"b\": \x7b\n    \"inline\": \"\u00e9\",\n    \"source\": \"old\"\n  \x7d,\n" ++
        "  \"storage\": \x7b\n    \"files\": [\n      \x7b\n        \"contents\": \x7b\n" ++
        "          \"source\": \"data:,%C3%A9\"\n        \x7d\n      \x7d,\n" ++
        "      \x7b\n        \"path\": \"/b\"\n      \x7d\n    ]\n  \x7d\n\x7d\n" ∧
      convert input = .ok output ∧
      ∃ document value, readDocument input = .ok document ∧ Json.read? output = some value ∧
        Converts document value ∧
        ∀ shown, writeDocument document = .ok shown → Json.read? shown = some (image document) := by
  refine ⟨_, _, rfl, rfl, ?converted, convert_converts ?converted⟩
  exact Steps.eq_ok_of_toOption (by decide +kernel)

end BootConfig
