import BootConfig.Config.Contents
import BootConfig.Config.Files
import BootConfig.Proofs.Steps
import BootConfig.Proofs.Tree.Entries

/-!
# What embedding does

A relation for the entries and the documents that are embedded without a fault. It names each way in
which an entry is left as it is, and the one in which it is changed.
-/

namespace BootConfig.Contents

open Steps

/-- A file entry before and after. -/
inductive Embeds : Tree → Tree → Prop where
  | noContents {fields : Entries} (h : fields.find? contentsKey = none) :
      Embeds (.map fields) (.map fields)
  | noInline {fields contents : Entries} (hc : fields.find? contentsKey = some (.map contents))
      (hi : contents.find? inlineKey = none) : Embeds (.map fields) (.map fields)
  | replaced {fields contents : Entries} {text : String}
      (hc : fields.find? contentsKey = some (.map contents))
      (hi : contents.find? inlineKey = some (.str text)) :
      Embeds (.map fields) (.map (fields.adjust contentsKey (.map (replaceInline text contents))))

/-- File entries before and after, one by one. -/
inductive EmbedsAll : List Tree → List Tree → Prop where
  | nil : EmbedsAll [] []
  | cons {entry entry' : Tree} {rest rest' : List Tree} (h : Embeds entry entry')
      (hs : EmbedsAll rest rest') : EmbedsAll (entry :: rest) (entry' :: rest')

/-- A document before and after. -/
inductive Embedded : Tree → Tree → Prop where
  | noStorage {root : Entries} (hs : root.find? storageKey = none) :
      Embedded (.map root) (.map root)
  | noFiles {root storage : Entries} (hs : root.find? storageKey = some (.map storage))
      (hf : storage.find? filesKey = none) : Embedded (.map root) (.map root)
  | files {root storage : Entries} {items items' : List Tree}
      (hs : root.find? storageKey = some (.map storage))
      (hf : storage.find? filesKey = some (.seq items)) (h : EmbedsAll items items') :
      Embedded (.map root)
        (.map (root.adjust storageKey (.map (storage.adjust filesKey (.seq items')))))

/-! ## Entries -/

theorem mapping_ok {path : String} {t : Tree} {entries : Entries}
    (h : mapping path t = .ok entries) : t = .map entries := by
  cases t with
  | map _ => cases h; rfl
  | _ => cases h

theorem embedEntry_ok {index : Nat} {entry entry' : Tree} {change : Change}
    (h : embedEntry index entry = .ok (change, entry')) : Embeds entry entry' := by
  obtain ⟨fields, hf, h⟩ := ok_of_then h
  have hentry := mapping_ok hf
  subst hentry
  cases hc : fields.find? contentsKey with
  | none =>
      simp only [hc] at h
      cases h
      exact .noContents hc
  | some t =>
      simp only [hc] at h
      obtain ⟨contents, hm, hr⟩ := ok_of_then h
      obtain ⟨⟨change', contents'⟩, he, hr⟩ := ok_of_then hr
      rw [mapping_ok hm] at hc
      cases hr
      unfold embedContents at he
      split at he
      · rename_i hi
        cases he
        rw [Entries.adjust_of_find? hc]
        exact .noInline hc hi
      · rename_i text hi
        cases he
        exact .replaced hc hi
      · cases he

theorem embedFrom_ok : (items : List Tree) → (index : Nat) → (embedFrom index items).fault = none →
    EmbedsAll items (embedFrom index items).value
  | [], _, _ => .nil
  | entry :: rest, index, h => by
      cases he : embedEntry index entry with
      | error fault => simp only [embedFrom, he, Outcome.failed] at h; cases h
      | ok r =>
          obtain ⟨change, entry'⟩ := r
          simp only [embedFrom, he] at h ⊢
          exact .cons (embedEntry_ok he) (embedFrom_ok rest _ h)

/-! ## Documents -/

theorem embedFiles_ok {files : Tree} (h : (embedFiles files).fault = none) :
    ∃ items items', files = .seq items ∧ (embedFiles files).value = .seq items' ∧
      EmbedsAll items items' := by
  cases files with
  | seq items => exact ⟨items, _, rfl, rfl, embedFrom_ok items 0 h⟩
  | _ => cases h

theorem embed_ok {document : Tree} (h : (embed document).fault = none) :
    Embedded document (embed document).value := by
  cases document with
  | map root =>
      cases hs : Entries.find? storageKey root with
      | none =>
          simp only [embed, within, hs]
          exact .noStorage hs
      | some storage =>
          simp only [embed, within, hs] at h ⊢
          cases storage with
          | map storage =>
              cases hf : Entries.find? filesKey storage with
              | none =>
                  simp only [embedStorage, within, hf, Outcome.map, Outcome.unchanged,
                    Entries.adjust_of_find? hs]
                  exact .noFiles hs hf
              | some files =>
                  simp only [embedStorage, within, hf] at h ⊢
                  obtain ⟨items, items', rfl, hv, ha⟩ := embedFiles_ok h
                  simp only [Outcome.map, hv]
                  exact .files hs hf ha
          | _ => cases h
  | _ => cases h

/-! ## Documents that can be embedded -/

theorem Embeds.embedEntry_eq {entry entry' : Tree} (h : Embeds entry entry') (index : Nat) :
    ∃ change, embedEntry index entry = .ok (change, entry') := by
  cases h with
  | noContents hc =>
      refine ⟨.noContents, ?_⟩
      simp [embedEntry, mapping, hc, bind, Except.bind, pure, Except.pure]
  | noInline hc hi =>
      refine ⟨.noInline, ?_⟩
      simp [embedEntry, embedContents, mapping, hc, hi, Entries.adjust_of_find? hc, bind,
        Except.bind, pure, Except.pure]
  | replaced hc hi =>
      refine ⟨.replaced, ?_⟩
      simp [embedEntry, embedContents, mapping, hc, hi, bind, Except.bind, pure, Except.pure]

theorem EmbedsAll.embedFrom_eq {items items' : List Tree} (h : EmbedsAll items items') :
    ∀ index, (embedFrom index items).fault = none ∧ (embedFrom index items).value = items' := by
  induction h with
  | nil => exact fun _ => ⟨rfl, rfl⟩
  | cons h _ ih =>
      intro index
      obtain ⟨change, he⟩ := h.embedEntry_eq index
      obtain ⟨hf, hv⟩ := ih (index + 1)
      simp only [embedFrom, he, hf, hv, and_self]

/-- The relation holds just of what embedding does without a fault. -/
theorem embedded_iff {document document' : Tree} :
    Embedded document document' ↔
      (embed document).fault = none ∧ (embed document).value = document' := by
  refine ⟨fun h => ?_, fun ⟨hf, hv⟩ => hv ▸ embed_ok hf⟩
  cases h with
  | noStorage hs => simp only [embed, within, hs, Outcome.map, Outcome.unchanged, and_self]
  | noFiles hs hf =>
      simp only [embed, within, hs, embedStorage, hf, Outcome.map, Outcome.unchanged,
        Entries.adjust_of_find? hs, and_self]
  | files hs hf h =>
      obtain ⟨hfault, hvalue⟩ := h.embedFrom_eq 0
      simp only [embed, within, hs, embedStorage, hf, embedFiles, Outcome.map, hfault,
        hvalue, and_self]

/-! ## File entries -/

theorem Embeds.inline?_none {entry entry' : Tree} (h : Embeds entry entry')
    (hi : entry.inline? = none) : entry' = entry := by
  cases h with
  | noContents _ => rfl
  | noInline _ _ => rfl
  | replaced hc hin =>
      simp only [contentsKey, inlineKey] at hc hin
      simp [Tree.inline?, Tree.get?, hc, hin] at hi

theorem find?_source (text : String) (contents : Entries) :
    (replaceInline text contents).find? sourceKey = some (.str (DataUrl.ofText text)) := by
  rw [replaceInline, sourceKey, inlineKey, Entries.find?_drop (by decide), Entries.find?_put]

theorem inline_not_mem {contents : Entries} (h : contents.OneEach) (text : String) :
    "inline" ∉ (replaceInline text contents).names :=
  Entries.not_mem_names_drop (h.put _)

theorem Embeds.inline?_text {entry entry' : Tree} {text : String} (h : Embeds entry entry')
    (hi : entry.inline? = some (.str text)) :
    (entry'.get? "contents").bind (·.get? "source") = some (.str (DataUrl.ofText text)) := by
  cases h with
  | noContents hc =>
      simp only [contentsKey] at hc
      simp [Tree.inline?, Tree.get?, hc] at hi
  | noInline hc hin =>
      simp only [contentsKey, inlineKey] at hc hin
      simp [Tree.inline?, Tree.get?, hc, hin] at hi
  | @replaced fields contents text' hc hin =>
      have ha := Entries.find?_adjust hc (.map (replaceInline text' contents))
      have hs := find?_source text' contents
      simp only [contentsKey, inlineKey, sourceKey] at hc hin ha hs
      simp only [Tree.inline?, Tree.get?, hc, hin, Option.bind_eq_bind, Option.bind_some,
        Option.some.injEq, Tree.str.injEq] at hi
      subst hi
      simp only [Tree.get?, contentsKey, ha, Option.bind_some, hs]

theorem EmbedsAll.mem {items items' : List Tree} (h : EmbedsAll items items') :
    ∀ entry' ∈ items', ∃ entry ∈ items, Embeds entry entry' := by
  induction h with
  | nil => intro _ h; cases h
  | cons h _ ih =>
      intro e he
      rcases List.mem_cons.mp he with rfl | he
      · exact ⟨_, by simp, h⟩
      · obtain ⟨entry, hm, he⟩ := ih e he
        exact ⟨entry, List.mem_cons_of_mem _ hm, he⟩

theorem EmbedsAll.getElem? {items items' : List Tree} (h : EmbedsAll items items') :
    (i : Nat) → (items[i]? = none ∧ items'[i]? = none) ∨
      ∃ entry entry', items[i]? = some entry ∧ items'[i]? = some entry' ∧ Embeds entry entry' := by
  induction h with
  | nil => intro i; simp
  | cons h _ ih =>
      intro i
      cases i with
      | zero => exact Or.inr ⟨_, _, rfl, rfl, h⟩
      | succ i => simpa using ih i

/-- An index that has a file entry before has one after, and no other has. -/
theorem Embedded.file? {document document' : Tree} (h : Embedded document document') (i : Nat) :
    (document.file? i = none ∧ document'.file? i = none) ∨
      ∃ entry entry', document.file? i = some entry ∧ document'.file? i = some entry' ∧
        Embeds entry entry' := by
  cases h with
  | noStorage hs =>
      simp only [storageKey] at hs
      left
      simp [Tree.file?, Tree.get?, hs]
  | noFiles hs hf =>
      simp only [storageKey, filesKey] at hs hf
      left
      simp [Tree.file?, Tree.get?, hs, hf]
  | @files root storage items items' hs hf h =>
      have hs' := Entries.find?_adjust hs (.map (storage.adjust filesKey (.seq items')))
      have hf' := Entries.find?_adjust hf (.seq items')
      simp only [storageKey, filesKey] at hs hf hs' hf'
      simpa [Tree.file?, Tree.get?, Tree.item?, storageKey, filesKey, hs, hf, hs',
        hf'] using h.getElem? i

end BootConfig.Contents
