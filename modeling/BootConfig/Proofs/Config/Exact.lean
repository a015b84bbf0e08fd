import Mathlib.Data.List.TakeWhile
import BootConfig.Config.Rewrite
import BootConfig.Proofs.Config.Embedding

/-!
# The exact document behind embedding

Embedding without a fault leaves the rewritten document and counts its entries: those with an inline
text, and the others.
-/

namespace BootConfig

/-! ## Entries of a mapping -/

namespace Entries

variable {name : String} {k v w : Tree} {es : Entries}

theorem isNamed_eq (name : String) (e : Tree × Tree) : isNamed name e = e.1.same (.str name) := by
  apply Bool.eq_iff_iff.mpr
  rw [isNamed, beq_iff_eq, Tree.text?_eq_some, Tree.same_str_iff]

theorem drop_eq (name : String) (es : Entries) :
    drop (.str name) es = es.eraseP (isNamed name) := by
  induction es with
  | nil => rfl
  | cons e es ih =>
      obtain ⟨k, v⟩ := e
      rw [drop, List.eraseP_cons, isNamed_eq, ih]
      cases k.same (.str name) <;> rfl

theorem update_cons (name : String) (change : Tree → Tree) (k v : Tree) (es : Entries) :
    update name change ((k, v) :: es) = if k.same (.str name) then (k, change v) :: es
      else (k, v) :: update name change es := by
  unfold update
  rw [List.findIdx_cons, isNamed_eq]
  cases k.same (.str name) <;> rfl

theorem put_eq (name : String) (value : Tree) (es : Entries) : put (.str name) value es =
    if es.any (isNamed name) then update name (fun _ => value) es
    else es ++ [(.str name, value)] := by
  induction es with
  | nil => rfl
  | cons e es ih =>
      obtain ⟨k, v⟩ := e
      rw [put, update_cons, List.any_cons, isNamed_eq, ih]
      cases k.same (.str name) with
      | true => rfl
      | false => cases h : es.any (isNamed name) <;> rfl

/-- Removal and insertion under two names can be exchanged. -/
theorem drop_put {name' : String} (hne : name ≠ name') (value : Tree) (es : Entries) :
    drop (.str name') (put (.str name) value es) = put (.str name) value
    (drop (.str name') es) := by
  induction es with
  | nil => simp [put, drop, Tree.same, hne]
  | cons e es ih =>
      obtain ⟨k, v⟩ := e
      cases hk : k.same (.str name) with
      | true =>
          have hk' : k.same (.str name') = false := by
            rw [Tree.same_str_iff.mp hk]
            simpa [Tree.same] using hne
          simp [put, drop, hk, hk']
      | false => cases hk' : k.same (.str name') <;> simp [put, drop, hk, hk', ih]

theorem update_of_find? {change : Tree → Tree} (h : find? (.str name) es = some v) :
    update name change es = adjust (.str name) (change v) es := by
  induction es with
  | nil => cases h
  | cons e es ih =>
      obtain ⟨k, w⟩ := e
      rw [find?] at h
      rw [update_cons, adjust]
      split <;> rename_i hk
      · rw [if_pos hk] at h
        cases h
        rfl
      · rw [if_neg hk] at h
        rw [ih h]

theorem update_of_none {change : Tree → Tree} (h : find? (.str name) es = none) :
    update name change es = es := by
  induction es with
  | nil => rfl
  | cons e es ih =>
      obtain ⟨k, w⟩ := e
      rw [find?] at h
      rw [update_cons]
      split <;> rename_i hk
      · rw [if_pos hk] at h
        cases h
      · rw [if_neg hk] at h
        rw [ih h]

theorem countP_update (name name' : String) (change : Tree → Tree) (es : Entries) :
    (update name change es).countP (isNamed name') = es.countP (isNamed name') := by
  induction es with
  | nil => rfl
  | cons e es ih =>
      obtain ⟨k, v⟩ := e
      rw [update_cons]
      split
      · simp only [List.countP_cons, isNamed_eq]
      · simp only [List.countP_cons, isNamed_eq, ih]

theorem withSource_ne {text : String} {contents : Entries}
    (h : find? (.str "inline") contents = some v) : contents.withSource text ≠ contents := by
  have hcount : (contents.withSource text).countP (isNamed "inline") =
      (contents.eraseP (isNamed "inline")).countP (isNamed "inline") := by
    unfold withSource
    simp only
    split
    · exact countP_update _ _ _ _
    · simp [isNamed, Tree.text?]
  intro heq
  rw [heq] at hcount
  obtain ⟨k, hk, hm⟩ := mem_of_find? h
  have hp : isNamed "inline" (k, v) = true := by rwa [isNamed_eq]
  obtain ⟨e, front, back, _, he, hsplit, herase⟩ := List.exists_of_eraseP hm hp
  rw [herase, hsplit, List.countP_append, List.countP_append, List.countP_cons_of_pos he] at hcount
  omega

end Entries

namespace Contents

theorem replaceInline_eq (text : String) (contents : Entries) :
    replaceInline text contents = contents.withSource text := by
  rw [replaceInline, sourceKey, inlineKey, Entries.drop_put (by decide), Entries.put_eq,
    Entries.drop_eq]
  rfl

/-! ## File entries -/

theorem inlineText?_eq_some {entry : Tree} {text : String} : entry.inlineText? = some text ↔
    ∃ fields contents : Entries,
    entry = .map fields ∧ fields.find? (.str "contents") = some (.map contents) ∧
    contents.find? (.str "inline") = some (.str text) := by
  constructor
  · intro h
    obtain ⟨inline, hi, ht⟩ := Option.bind_eq_some_iff.mp h
    obtain ⟨contents, hc, hi⟩ := Option.bind_eq_some_iff.mp hi
    cases entry with
    | map fields =>
        cases contents with
        | map contents =>
            exact ⟨fields, contents, rfl, hc, by rw [← Tree.text?_eq_some.mp ht]; exact hi⟩
        | _ => cases hi
    | _ => cases hc
  · rintro ⟨fields, contents, rfl, hc, hi⟩
    simp [Tree.inlineText?, Tree.inline?, Tree.get?, hc, hi, Tree.text?]

theorem rewriteEntry_ne_iff {entry : Tree} :
    entry.rewriteEntry ≠ entry ↔ entry.inlineText?.isSome = true := by
  cases h : entry.inlineText? with
  | none => simp [Tree.rewriteEntry, h]
  | some text =>
      refine iff_of_true ?_ rfl
      obtain ⟨fields, contents, rfl, hc, hi⟩ := inlineText?_eq_some.mp h
      rw [Tree.rewriteEntry, h]
      intro heq
      have hfields := Tree.map.inj heq
      rw [Entries.update_of_find? hc] at hfields
      have hfound := Entries.find?_adjust hc (.map (Entries.withSource text contents))
      rw [hfields, hc] at hfound
      exact Entries.withSource_ne hi (Tree.map.inj (Option.some.inj hfound)).symm

theorem Embeds.rewriteEntry {entry entry' : Tree} (h : Embeds entry entry') :
    entry' = entry.rewriteEntry := by
  cases h with
  | noContents hc =>
      rw [contentsKey] at hc
      simp [Tree.rewriteEntry, Tree.inlineText?, Tree.inline?, Tree.get?, hc]
  | noInline hc hi =>
      rw [contentsKey] at hc
      rw [inlineKey] at hi
      simp [Tree.rewriteEntry, Tree.inlineText?, Tree.inline?, Tree.get?, hc, hi]
  | replaced hc hi =>
      rw [Tree.rewriteEntry, inlineText?_eq_some.mpr ⟨_, _, rfl, hc, hi⟩, replaceInline_eq]
      refine congrArg Tree.map ?_
      rw [contentsKey] at hc ⊢
      rw [Entries.update_of_find? hc]

theorem EmbedsAll.rewriteEntry {items items' : List Tree} (h : EmbedsAll items items') :
    items' = items.map Tree.rewriteEntry := by
  induction h with
  | nil => rfl
  | cons h _ ih => rw [List.map_cons, ← h.rewriteEntry, ← ih]

theorem Embedded.rewriteFiles {document document' : Tree} (h : Embedded document document') :
    document' = document.rewriteFiles := by
  cases h with
  | noStorage hs => exact congrArg Tree.map (Entries.update_of_none hs).symm
  | @noFiles root storage hs hf =>
      refine congrArg Tree.map ?_
      rw [storageKey] at hs
      rw [Entries.update_of_find? hs, Tree.update, Entries.update_of_none hf,
        Entries.adjust_of_find? hs]
  | @files root storage items items' hs hf h =>
      refine congrArg Tree.map ?_
      rw [Entries.update_of_find? hs, Tree.update, Entries.update_of_find? hf, h.rewriteEntry]
      rfl

/-! ## What became of the entries -/

theorem change?_of_embedEntry (index : Nat) (entry : Tree) :
    entry.change? = (embedEntry index entry).toOption.map (·.1) := by
  cases entry with
  | map fields =>
      unfold Tree.change? embedEntry
      simp only [mapping, contentsKey, bind, Except.bind]
      cases hc : Entries.find? (.str "contents") fields with
      | none => rfl
      | some contents =>
          cases contents with
          | map contents =>
              simp only [embedContents, inlineKey]
              cases hi : Entries.find? (.str "inline") contents with
              | none => rfl
              | some inline => cases inline <;> rfl
          | _ => rfl
  | _ => rfl

/-- What became of all entries up to the first fault, which none of them is where there is no
fault. -/
def Visited (entries : List Tree) (changes : List Change) (fault : Option ShapeFault) : Prop :=
  changes = (entries.takeWhile (·.change?.isSome)).filterMap Tree.change? ∧
    (fault = none → ∀ entry ∈ entries, entry.change?.isSome = true)

theorem embedFrom_visited : (items : List Tree) → (index : Nat) →
    Visited items (embedFrom index items).changes (embedFrom index items).fault
  | [], _ => ⟨rfl, fun _ _ h => absurd h List.not_mem_nil⟩
  | entry :: items, index => by
      have hentry := change?_of_embedEntry index entry
      obtain ⟨hchanges, hfault⟩ := embedFrom_visited items (index + 1)
      cases he : embedEntry index entry with
      | error fault =>
          rw [he] at hentry
          have hnone : entry.change? = none := hentry
          simp only [embedFrom, he, Outcome.failed]
          exact ⟨by simp [hnone], fun h => by cases h⟩
      | ok r =>
          obtain ⟨change, entry'⟩ := r
          rw [he] at hentry
          have hsome : entry.change? = some change := hentry
          simp only [embedFrom, he]
          exact ⟨by simp [hsome, hchanges], fun h =>
            List.forall_mem_cons.mpr ⟨by simp [hsome], hfault h⟩⟩

theorem embed_visited (document : Tree) :
    Visited document.files (embed document).changes (embed document).fault := by
  have hnothing : ∀ fault, Visited [] [] fault :=
    fun fault => ⟨rfl, fun _ _ h => absurd h List.not_mem_nil⟩
  cases document with
  | map root =>
      simp only [embed, within, storageKey, Tree.files, Tree.get?]
      cases hs : Entries.find? (.str "storage") root with
      | none => exact hnothing none
      | some storage =>
          cases storage with
          | map storage =>
              simp only [embedStorage, within, filesKey, Option.bind_some, Outcome.map]
              cases hf : Entries.find? (.str "files") storage with
              | none => exact hnothing none
              | some files =>
                  cases files with
                  | seq items => exact embedFrom_visited items 0
                  | _ => exact hnothing _
          | _ => exact hnothing _
  | _ => exact hnothing _

theorem change?_eq_replaced {entry : Tree} :
    entry.change? = some .replaced ↔ entry.inlineText?.isSome = true := by
  rw [Option.isSome_iff_exists]
  constructor
  · intro h
    unfold Tree.change? at h
    split at h
    · rename_i fields
      split at h
      · cases h
      · rename_i contents hc
        split at h
        · cases h
        · rename_i text hi
          exact ⟨text, inlineText?_eq_some.mpr ⟨fields, contents, rfl, hc, hi⟩⟩
        · cases h
      · cases h
    · cases h
  · rintro ⟨text, h⟩
    obtain ⟨fields, contents, rfl, hc, hi⟩ := inlineText?_eq_some.mp h
    simp [Tree.change?, hc, hi]

/-! ## Documents -/

theorem length_eq_replaced_skipped {α : Type} (o : Outcome α) :
    o.changes.length = o.replaced + o.skipped := by
  rw [List.length_eq_countP_add_countP (· == Change.replaced), Outcome.replaced, Outcome.skipped]
  refine congrArg (_ + ·) (List.countP_congr fun change _ => ?_)
  cases change <;> simp

/-- A document that is embedded without a fault is rewritten and in nothing else changed. Its
entries with an inline text, which are those that change, and the others are counted. -/
theorem embed_rewritten {document : Tree} (h : (embed document).fault = none) :
    (embed document).value = document.rewriteFiles ∧
      (embed document).replaced = document.files.countP (·.inlineText?.isSome) ∧
      (embed document).skipped = document.files.countP (·.inlineText?.isNone) ∧
      (embed document).replaced + (embed document).skipped = document.files.length ∧
      ∀ entry ∈ document.files, entry.rewriteEntry ≠ entry ↔ entry.inlineText?.isSome = true := by
  obtain ⟨hchanges, hfault⟩ := embed_visited document
  rw [List.takeWhile_eq_self_iff.mpr (hfault h)] at hchanges
  have hreplaced : (embed document).replaced = document.files.countP (·.inlineText?.isSome) := by
    rw [Outcome.replaced, hchanges, List.countP_filterMap]
    refine List.countP_congr fun entry _ => ?_
    rw [← change?_eq_replaced]
    cases entry.change? <;> simp
  have hlength : (embed document).changes.length = document.files.length := by
    rw [hchanges, List.length_filterMap_eq_countP]
    exact List.countP_eq_length.mpr (hfault h)
  have hsum := length_eq_replaced_skipped (embed document)
  have hfiles := List.length_eq_countP_add_countP (·.inlineText?.isSome) (l := document.files)
  have hskipped : (embed document).skipped = document.files.countP (·.inlineText?.isNone) := by
    have hnone : document.files.countP (·.inlineText?.isNone) = document.files.countP fun entry =>
        ¬entry.inlineText?.isSome :=
      List.countP_congr fun entry _ => by simp
    omega
  exact ⟨(embed_ok h).rewriteFiles, hreplaced, hskipped, by omega, fun entry _ =>
    rewriteEntry_ne_iff⟩

/-- A source that keeps its slot in front of the inline text, a source that is new, a key that is no
text, and an equal mapping elsewhere. -/
theorem embed_rewritten_mixed :
    ∃ document : Tree, (embed document).fault = none ∧
      (embed document).value = document.rewriteFiles ∧
      (embed document).replaced = 2 ∧ (embed document).skipped = 1 ∧
      document.rewriteFiles = .map [
        (.str "copy", .map [(.str "inline", .str "b")]),
        (.str "storage", .map [(.str "files", .seq [
          .map [(.str "contents", .map [(.str "source", .str "data:,a"), (.int 1, .null)]),
          (.str "path", .str "/a")],
          .map [(.str "contents", .map [(.str "mode", .int 420), (.str "source", .str "data:,b")])],
          .map [(.str "path", .str "/c")]])])] := by
  have hfault : (embed (.map [
      (.str "copy", .map [(.str "inline", .str "b")]),
      (.str "storage", .map [(.str "files", .seq [
        .map [(.str "contents",
            .map [(.str "source", .null), (.int 1, .null), (.str "inline", .str "a")]),
          (.str "path", .str "/a")],
        .map [(.str "contents", .map [(.str "inline", .str "b"), (.str "mode", .int 420)])],
        .map [(.str "path", .str "/c")]])])])).fault = none := by decide +kernel
  obtain ⟨hvalue, hreplaced, hskipped, _⟩ := embed_rewritten hfault
  exact ⟨_, hfault, hvalue, hreplaced.trans (by decide +kernel),
    hskipped.trans (by decide +kernel), rfl⟩

end Contents

end BootConfig
