import Mathlib.Logic.Function.Iterate
import BootConfig.Proofs.Config.Contract
import BootConfig.Proofs.Config.Exact

/-!
# Embedding once more

What embedding leaves, be it with a fault or without one, is left alone when it is embedded again,
and meets the same fault.
-/

namespace BootConfig.Contents

/-! ## Outcomes -/

/-- An outcome that changes nothing behind another one. -/
structure Outcome.Stays {α : Type} (o o' : Outcome α) : Prop where
  value : o'.value = o.value
  fault : o'.fault = o.fault
  length : o'.changes.length = o.changes.length
  not_replaced : .replaced ∉ o'.changes

section Stays

variable {α β : Type} {o o' : Outcome α}

theorem Outcome.Stays.map (h : o.Stays o') (f : α → β) : (o.map f).Stays (o'.map f) :=
  ⟨congrArg f h.value, h.fault, h.length, h.not_replaced⟩

theorem Outcome.Stays.counts (h : o.Stays o') :
    o'.replaced = 0 ∧ o'.skipped = o.replaced + o.skipped := by
  have hreplaced : o'.replaced = 0 := by
    rw [replaced, List.countP_eq_zero]
    intro change hm he
    exact h.not_replaced (beq_iff_eq.mp he ▸ hm)
  have hlength := length_eq_replaced_skipped o'
  rw [h.length, length_eq_replaced_skipped, hreplaced, Nat.zero_add] at hlength
  exact ⟨hreplaced, hlength.symm⟩

theorem Outcome.stays_unchanged (value : α) : (Outcome.unchanged value).Stays (.unchanged value) :=
  ⟨rfl, rfl, rfl, List.not_mem_nil⟩

theorem Outcome.stays_failed (value : α) (fault : ShapeFault) :
    (Outcome.failed value fault).Stays (.failed value fault) :=
  ⟨rfl, rfl, rfl, List.not_mem_nil⟩

end Stays

/-! ## File entries -/

theorem Embeds.left {entry entry' : Tree} (hd : Distinct entry) (h : Embeds entry entry') :
    Embeds entry' entry' ∧ entry'.inline? = none := by
  cases h with
  | noContents hc =>
      refine ⟨.noContents hc, ?_⟩
      rw [contentsKey] at hc
      simp [Tree.inline?, Tree.get?, hc]
  | noInline hc hi =>
      refine ⟨.noInline hc hi, ?_⟩
      rw [contentsKey] at hc
      rw [inlineKey] at hi
      simp [Tree.inline?, Tree.get?, hc, hi]
  | @replaced fields contents text hc _ =>
      have hc' := Entries.find?_adjust hc (.map (replaceInline text contents))
      have hi' := Entries.find?_str_eq_none.mpr (inline_not_mem (hd.find? hc).1 text)
      refine ⟨.noInline hc' hi', ?_⟩
      rw [contentsKey] at hc' ⊢
      simp [Tree.inline?, Tree.get?, hc', hi']

theorem embedEntry_again {index : Nat} {entry entry' : Tree} {change : Change} (hd : Distinct entry)
    (h : embedEntry index entry = .ok (change, entry')) :
    ∃ change', embedEntry index entry' = .ok (change', entry') ∧ change' ≠ .replaced := by
  obtain ⟨hleft, hinline⟩ := (embedEntry_ok h).left hd
  obtain ⟨change', h'⟩ := hleft.embedEntry_eq index
  refine ⟨change', h', fun he => ?_⟩
  have hreplaced : entry'.change? = some .replaced := by
    rw [change?_of_embedEntry index, h', he]; rfl
  have htext := change?_eq_replaced.mp hreplaced
  rw [Tree.inlineText?, hinline] at htext
  cases htext

theorem embedFrom_again : (items : List Tree) → (index : Nat) → (∀ entry ∈ items, Distinct entry) →
    (embedFrom index items).Stays (embedFrom index (embedFrom index items).value)
  | [], _, _ => Outcome.stays_unchanged []
  | entry :: items, index, hd => by
      obtain ⟨hentry, hitems⟩ := List.forall_mem_cons.mp hd
      cases he : embedEntry index entry with
      | error fault =>
          simp only [embedFrom, he, Outcome.failed]
          exact Outcome.stays_failed _ fault
      | ok r =>
          obtain ⟨change, entry'⟩ := r
          obtain ⟨change', he', hne⟩ := embedEntry_again hentry he
          obtain ⟨hvalue, hfault, hlength, hnot⟩ := embedFrom_again items (index + 1) hitems
          simp only [embedFrom, he, he']
          exact ⟨congrArg (entry' :: ·) hvalue, hfault, congrArg (· + 1) hlength,
            List.not_mem_cons_of_ne_of_not_mem hne.symm hnot⟩

/-! ## Documents -/

theorem within_again {key : Tree} {change : Tree → Outcome Tree} {entries : Entries}
    (h : ∀ t, entries.find? key = some t → (change t).Stays (change (change t).value)) :
    (within key change entries).Stays (within key change (within key change entries).value) := by
  cases hf : entries.find? key with
  | none =>
      simp only [within, hf, Outcome.unchanged]
      exact Outcome.stays_unchanged entries
  | some t =>
      have hs := h t hf
      have hf' := Entries.find?_adjust hf (change t).value
      simp only [within, hf, Outcome.map, hf']
      refine ⟨?_, hs.fault, hs.length, hs.not_replaced⟩
      rw [hs.value, Entries.adjust_of_find? hf']

theorem embedFiles_again {t : Tree} (hd : Distinct t) :
    (embedFiles t).Stays (embedFiles (embedFiles t).value) := by
  cases t with
  | seq items => exact (embedFrom_again items 0 (Tree.allItems_iff.mp hd)).map Tree.seq
  | _ => exact Outcome.stays_failed _ _

theorem embedStorage_again {t : Tree} (hd : Distinct t) :
    (embedStorage t).Stays (embedStorage (embedStorage t).value) := by
  cases t with
  | map entries => exact (within_again fun _ hf => embedFiles_again (hd.find? hf)).map Tree.map
  | _ => exact Outcome.stays_failed _ _

theorem embed_stays {document : Tree} (hd : Distinct document) :
    (embed document).Stays (embed (embed document).value) := by
  cases document with
  | map entries => exact (within_again fun _ hf => embedStorage_again (hd.find? hf)).map Tree.map
  | _ => exact Outcome.stays_failed _ _

/-- Embedding a document whose mappings have no name twice again leaves it as it is, with the same
fault or none, and counts all entries as left as they were. So does embedding it any number of
times. -/
theorem embed_again {document : Tree} (hd : Distinct document) :
    (embed (embed document).value).value = (embed document).value ∧
      (embed (embed document).value).fault = (embed document).fault ∧
      (embed (embed document).value).replaced = 0 ∧
      (embed (embed document).value).skipped = (embed document).replaced +
      (embed document).skipped ∧
      ∀ n, (fun t => (embed t).value)^[n + 1] document = (embed document).value := by
  have hs := embed_stays hd
  refine ⟨hs.value, hs.fault, hs.counts.1, hs.counts.2, fun n => ?_⟩
  rw [Function.iterate_succ_apply]
  exact Function.iterate_fixed hs.value n

/-- A document with a fault behind an entry that is rewritten. -/
theorem embed_again_behind_fault :
    ∃ document : Tree, Distinct document ∧
      (embed document).value = .map [(.str "storage", .map [(.str "files", .seq [
        .map [(.str "contents", .map [(.int 1, .null), (.str "source", .str "data:,a")])],
        .map [(.str "contents", .int 5)]])])] ∧
      (embed document).fault = some ⟨"storage.files[1].contents", "mapping", "number"⟩ ∧
      (embed document).replaced = 1 ∧
      (embed (embed document).value).value = (embed document).value ∧
      (embed (embed document).value).fault = (embed document).fault ∧
      (embed (embed document).value).replaced = 0 ∧ (embed (embed document).value).skipped = 1 := by
  have hd : Distinct (.map [(.str "storage", .map [(.str "files", .seq [
      .map [(.str "contents", .map [(.str "inline", .str "a"), (.int 1, .null)])],
      .map [(.str "contents", .int 5)]])])]) := by
    simp only [Tree.All, Tree.AllEntries, Tree.AllItems, Entries.OneEach, and_true]
    decide
  obtain ⟨hvalue, hfault, hreplaced, hskipped, _⟩ := embed_again hd
  exact ⟨_, hd, rfl, rfl, rfl, hvalue, hfault, hreplaced, hskipped⟩

end BootConfig.Contents
