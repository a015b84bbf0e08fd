import BootConfig.Proofs.Config.Contract
import BootConfig.Proofs.Config.Unique
import BootConfig.Proofs.Config.Weight
import BootConfig.Proofs.Tree.Standard
import BootConfig.Proofs.Yaml.Expands
import BootConfig.Proofs.Yaml.ReadBack
import BootConfig.Proofs.Yaml.Readable

/-!
# A second pass

The output of a conversion is converted to itself just when it can be read, its strings are read as
they are, no name in it is a merge key, and no name is given twice in one object. Each of the stages
makes a tree lighter or leaves it alone, so that none of them can make up for what another one
loses.
-/

namespace BootConfig

open Contents Json Yaml

/-! ## Trees that are read again -/

namespace Yaml

theorem isSimple_soft {s : String} (h : Lex.IsSimple s) :
    ∀ c ∈ s.toList, isSoft c = true → c = ' ' := by
  intro c hc hs
  have hw : ∀ x ∈ escape c, isBreak x = false := fun x hx => h.1 x (by
    simp only [writeString, List.mem_cons, List.mem_append, List.mem_flatMap]
    exact Or.inr (Or.inl ⟨c, hc, hx⟩))
  simp only [isSoft, Bool.or_eq_true, beq_iff_eq] at hs
  rcases hs with ((rfl | rfl) | rfl) | rfl
  · rfl
  all_goals exact absurd (hw _ List.mem_cons_self) (by decide)

/-- A name within reach of its colon is read as it is. -/
theorem refoldText?_simple {s : String} (h : Lex.IsSimple s) : refoldText? s = some s := by
  rw [refoldText?, (refold?_spaces s.toList (isSimple_soft h)).1]
  simp

end Yaml

namespace Tree

/-- What is left of a standard tree when its strings are folded: another one of its weight, with
another image unless it is the same. -/
structure Refolds (t t' : Tree) : Prop where
  standard : t'.Standard
  weight : t'.weight = t.weight
  eq_of_image : image t' = image t → t' = t

structure RefoldsItems (ts ts' : List Tree) : Prop where
  standard : StandardItems ts'
  weight : (ts'.map Tree.weight).sum = (ts.map Tree.weight).sum
  eq_of_image : imageItems ts' = imageItems ts → ts' = ts

structure RefoldsEntries (es es' : Entries) : Prop where
  standard : StandardEntries es'
  weight : es'.weight = es.weight
  eq_of_image : imageEntries es' = imageEntries es → es' = es

theorem Refolds.refl {t : Tree} (h : t.Standard) : Refolds t t := ⟨h, rfl, fun _ => rfl⟩

mutual

theorem refolds : (t : Tree) → {t' : Tree} → t.Standard → t.AllNames Lex.IsSimple →
    reread? t = some t' → Refolds t t'
  | .null, _, hs, _, h | .bool _, _, hs, _, h | .int _, _, hs, _, h | .float _, _, hs, _, h => by
      cases h; exact .refl hs
  | .str s, _, _, _, h => by
      obtain ⟨s', _, rfl⟩ := Option.map_eq_some_iff.mp h
      exact ⟨trivial, rfl, fun he => by cases he; rfl⟩
  | .seq items, _, hs, hn, h => by
      obtain ⟨items', hitems, rfl⟩ := Option.map_eq_some_iff.mp h
      have hr := refoldsItems items hs hn hitems
      refine ⟨hr.standard, by rw [weight_seq, weight_seq, hr.weight], fun he => ?_⟩
      rw [hr.eq_of_image (Value.array.inj he)]
  | .map es, _, hs, hn, h => by
      obtain ⟨es', hes, rfl⟩ := Option.map_eq_some_iff.mp h
      have hr := refoldsEntries es hs hn hes
      refine ⟨hr.standard, by rw [weight_map, weight_map, hr.weight], fun he => ?_⟩
      rw [hr.eq_of_image (Value.object.inj he)]
  | .tagged _ _, _, hs, _, _ => hs.elim

theorem refoldsItems : (ts : List Tree) → {ts' : List Tree} → StandardItems ts →
    AllNamesItems Lex.IsSimple ts → rereadItems? ts = some ts' → RefoldsItems ts ts'
  | [], _, _, _, h => by cases h; exact ⟨trivial, rfl, fun _ => rfl⟩
  | t :: ts, _, hs, hn, h => by
      obtain ⟨t', ts', ht, hts, rfl⟩ := rereadItems?_cons.mp h
      have hr := refolds t hs.1 hn.1 ht
      have hrs := refoldsItems ts hs.2 hn.2 hts
      refine ⟨⟨hr.standard, hrs.standard⟩, ?_, fun he => ?_⟩
      · simp only [List.map_cons, List.sum_cons, hr.weight, hrs.weight]
      · obtain ⟨he, hes⟩ := List.cons.inj he
        rw [hr.eq_of_image he, hrs.eq_of_image hes]

theorem refoldsEntries : (es : Entries) → {es' : Entries} → StandardEntries es →
    AllNamesEntries Lex.IsSimple es → rereadEntries? es = some es' → RefoldsEntries es es'
  | [], _, _, _, h => by cases h; exact ⟨trivial, rfl, fun _ => rfl⟩
  | (k, v) :: es, _, hs, hn, h => by
      obtain ⟨⟨name, rfl⟩, hv, hes⟩ := hs
      obtain ⟨hname, hnv, hns⟩ := hn
      obtain ⟨cs, v', es', hcs, hv', hes', rfl⟩ := rereadEntries?_cons.mp h
      have hsame : some (String.ofList cs) = some name :=
        (refoldText?_eq_some.mpr ⟨cs, hcs, rfl⟩).symm.trans (refoldText?_simple (hname name rfl))
      rw [Option.some.inj hsame]
      have hr := refolds v hv hnv hv'
      have hrs := refoldsEntries es hes hns hes'
      refine ⟨⟨⟨name, rfl⟩, hr.standard, hrs.standard⟩, ?_, fun he => ?_⟩
      · simp only [Entries.weight_cons, hr.weight, hrs.weight]
      · obtain ⟨he, hes⟩ := List.cons.inj he
        rw [hr.eq_of_image (Prod.mk.inj he).2, hrs.eq_of_image hes]

end

/-! ## Trees that merging and embedding leave alone -/

variable {p : String → Prop}

theorem AllNamesItems.mem : {ts : List Tree} → AllNamesItems p ts → ∀ t ∈ ts, t.AllNames p
  | _ :: _, h, _, ht => by
      rcases List.mem_cons.mp ht with rfl | ht
      · exact h.1
      · exact AllNamesItems.mem h.2 _ ht

theorem AllNamesEntries.mem : {es : Entries} → AllNamesEntries p es →
    ∀ e ∈ es, (∀ name, e.1 = .str name → p name) ∧ e.2.AllNames p
  | (_, _) :: _, h, _, he => by
      rcases List.mem_cons.mp he with rfl | he
      · exact ⟨h.1, h.2.1⟩
      · exact AllNamesEntries.mem h.2.2 _ he

end Tree

namespace Yaml.Merge

theorem unmarked_of_meets {t u : Tree} (h : Meets t u) (ht : t.AllNames (· ≠ "<<")) :
    u.AllNames (· ≠ "<<") := by
  induction h with
  | self _ => exact ht
  | element hm _ ih => exact ih (Tree.AllNamesItems.mem ht _ hm)
  | @value es key v u hv _ ih =>
      have hes : ∀ e ∈ es, _ := Tree.AllNamesEntries.mem ht
      cases hv with
      | written hm _ => exact ih (hes _ hm).2
      | brought _ hs _ _ _ => exact absurd rfl ((hes _ hs).1 "<<" rfl)
  | content _ ih => exact ih ht

theorem expandTo_unmarked (depth : Nat) {t : Tree} (h : t.AllNames (· ≠ "<<")) :
    expandTo depth t = .ok t := by
  refine expandTo_self depth t fun es hm value hv => ?_
  have hes : Tree.AllNamesEntries (· ≠ "<<") es := unmarked_of_meets hm h
  exact (hes.mem _ hv).1 "<<" rfl rfl

end Yaml.Merge

/-! ## Documents that are left alone -/

namespace Contents

section Left

variable {es : Entries} {name : String} {v t : Tree}

theorem hasMember_of_find? (h : es.find? (.str name) = some v) :
    (image (.map es)).HasMember name (image v) := by
  simp only [image, Value.HasMember]
  induction es with
  | nil => cases h
  | cons e es ih =>
      obtain ⟨k, w⟩ := e
      simp only [Entries.find?] at h
      split at h
      · rename_i hk
        cases h
        rw [Tree.same_str_iff.mp hk]
        exact List.mem_cons_self
      · exact List.mem_cons_of_mem _ (ih h)

theorem standard_find? (hs : Tree.StandardEntries es) (h : es.find? (.str name) = some v) :
    v.Standard := by
  induction es with
  | nil => cases h
  | cons e es ih =>
      simp only [Entries.find?] at h
      split at h
      · cases h
        exact hs.2.1
      · exact ih hs.2.2 h

/-- Only a mapping is an object, without tags. -/
theorem map_of_isObject (hs : t.Standard) (h : (image t).IsObject) : ∃ es, t = .map es := by
  cases t with
  | map es => exact ⟨es, rfl⟩
  | tagged _ _ => exact hs.elim
  | float x =>
      simp only [image] at h
      split at h <;> exact h.elim
  | _ => exact h.elim

theorem seq_of_array (hs : t.Standard) {values : List Value} (h : image t = .array values) :
    ∃ items, t = .seq items ∧ imageItems items = values := by
  cases t with
  | seq items => exact ⟨items, rfl, Value.array.inj h⟩
  | float x =>
      simp only [image] at h
      split at h <;> cases h
  | _ => cases h

theorem embeds_self (hs : t.Standard) (h : (image t).EntryOk) : Embeds t t := by
  obtain ⟨fields, rfl⟩ := map_of_isObject hs h.object
  cases hc : Entries.find? contentsKey fields with
  | none => exact .noContents hc
  | some c =>
      obtain ⟨hobject, hinline⟩ := h.contents _ (hasMember_of_find? hc)
      obtain ⟨contents, rfl⟩ := map_of_isObject (standard_find? hs hc) hobject
      cases hi : Entries.find? inlineKey contents with
      | none => exact .noInline hc hi
      | some inline => exact absurd (hasMember_of_find? hi) (hinline _)

theorem embedsAll_self : {items : List Tree} → Tree.StandardItems items →
    (∀ value ∈ imageItems items, value.EntryOk) → EmbedsAll items items
  | [], _, _ => .nil
  | _ :: _, hs, h => by
      obtain ⟨ht, hts⟩ := List.forall_mem_cons.mp h
      exact .cons (embeds_self hs.1 ht) (embedsAll_self hs.2 hts)

theorem embedded_self (hs : t.Standard) (h : (image t).FilesOk) : Embedded t t := by
  obtain ⟨root, rfl⟩ := map_of_isObject hs h.object
  cases hst : Entries.find? storageKey root with
  | none => exact .noStorage hst
  | some s =>
      have hstorage := hasMember_of_find? hst
      obtain ⟨storage, rfl⟩ := map_of_isObject (standard_find? hs hst) (h.storage _ hstorage)
      cases hf : Entries.find? filesKey storage with
      | none => exact .noFiles hst hf
      | some files =>
          obtain ⟨values, hv, hall⟩ := h.files _ _ hstorage (hasMember_of_find? hf)
          have hfiles := standard_find? (standard_find? hs hst) hf
          obtain ⟨items, rfl, rfl⟩ := seq_of_array hfiles hv
          have hself := Embedded.files hst hf (embedsAll_self hfiles hall)
          rwa [Entries.adjust_of_find? hf, Entries.adjust_of_find? hst] at hself

end Left

end Contents

theorem Produced.fromScalars {t : Tree} (h : Produced t) : t.FromScalars :=
  h.keyed.all.imp (fun _ => id) fun _ _ => trivial

/-! ## The second pass -/

/-- A standard tree whose text is converted to itself. -/
structure Repeats (t : Tree) : Prop where
  allowed : ∀ c ∈ write 0 t ['\n'], isAllowed c = true
  reread : reread? t = some t
  names : t.AllNames Lex.IsSimple
  unmarked : t.AllNames (· ≠ "<<")
  distinct : Distinct t
  depth : t.depth ≤ maxDepth

/-- A safe tree without merge keys is such a tree, unless it is too deep. -/
theorem Tree.Safe.repeats {t : Tree} (h : t.Safe) (hu : t.AllNames (· ≠ "<<"))
    (hd : t.depth ≤ maxDepth) : Repeats t where
  allowed := allAllowed_write 0 t ['\n'] h (by simp [AllAllowed, isAllowed])
  reread := reread?_safe t h
  names := allNames_safe t h
  unmarked := hu
  distinct := Tree.Safe.distinct t h
  depth := hd

theorem convert_of_ok {input output : String} {document : Tree}
    (hd : readDocument input = .ok document) (hf : (embed document).fault = none)
    (hr : render (embed document).value = .ok output) : convert input = .ok output := by
  unfold convert Conversion.ofText
  rw [hd]
  simp only [Conversion.ofOutcome, hf]
  rw [writeDocument, hr, Except.mapError]

section SecondPass

variable {t : Tree} {text : String} (hs : t.Standard) (hr : render t = .ok text)

include hs hr

theorem convert_of_repeats (hf : (image t).FilesOk) (h : Repeats t) : convert text = .ok text := by
  have hread := read_written hs h.reread h.names h.allowed h.depth
  rw [Tree.gather_eq t hs h.distinct, (render_eq_ok.mp hr).2] at hread
  have hdocument : readDocument text = .ok t :=
    readDocument_eq_ok.mpr ⟨t, hread, Merge.expandTo_unmarked t.depth h.unmarked⟩
  obtain ⟨hfault, hvalue⟩ := embedded_iff.mp (embedded_self hs hf)
  exact convert_of_ok hdocument hfault (hvalue.symm ▸ hr)

/-- No stage has changed a tree whose text comes out again, since none of them makes a tree
heavier. -/
theorem repeats_of_convert (h : convert text = .ok text) : Repeats t := by
  obtain ⟨document, hd, hfault, hrender⟩ := convert_ok h
  obtain ⟨u, hread, hexpand⟩ := readDocument_eq_ok.mp hd
  rw [← (render_eq_ok.mp hr).2] at hread
  obtain ⟨t', hreadable, rfl⟩ := (read_written_iff hs).mp hread
  have hrefolds := Tree.refolds t hs hreadable.names hreadable.reread
  have himage : image (embed document).value = image t :=
    Option.some.inj ((read?_render hrender).symm.trans (read?_render hr))
  have hweight : (embed document).value.weight = t'.weight :=
    (congrArg Value.weight himage).trans hrefolds.weight.symm
  obtain ⟨hembed, hembedded⟩ := (embed_ok hfault).weight
  obtain ⟨hmerge, hmerged⟩ := Merge.weight_expandTo _ hexpand
  obtain ⟨hgather, hgathered⟩ := Tree.weight_gather t' hrefolds.standard
  have hdistinct := hgathered (by omega)
  obtain ⟨hdocument, hunmarked⟩ := hmerged (by omega)
  rw [Tree.gather_eq t' hrefolds.standard hdistinct] at hdocument hunmarked
  rw [hembedded (by omega), hdocument] at himage
  obtain rfl := hrefolds.eq_of_image himage
  exact ⟨hreadable.allowed, hreadable.reread, hreadable.names, hunmarked (Nat.le_refl _), hdistinct,
    hreadable.depth⟩

end SecondPass

/-- What comes out of a conversion comes out of a second one just when the tree that it says
repeats. -/
theorem convert_again_iff {input output : String} (h : convert input = .ok output) :
    ∃ document, readDocument input = .ok document ∧
      (convert output = .ok output ↔ Repeats (embed document).value.standard) := by
  obtain ⟨document, hd, hfault, hrender⟩ := convert_ok h
  have hembedded := embed_ok hfault
  have hs := Tree.standard_standard _ (Produced.document hd).embedded.fromScalars
  have hfiles := hembedded.filesOk (readDocument_distinct hd)
  rw [← Tree.image_standard] at hfiles
  have hr : render (embed document).value.standard = .ok output :=
    render_eq_ok.mpr
      ⟨keyFault?_standard _ hs, by rw [Tree.write_standard, (render_eq_ok.mp hrender).2]⟩
  exact ⟨document, hd, repeats_of_convert hs hr, convert_of_repeats hs hr hfiles⟩

/-- A character that is written as it is and may not be read. -/
example :
    ((convert "a: \"\\x7F\"").toOption.map fun output => (output, (convert output).toOption)) =
    some ("\x7b\n  \"a\": \"\x7f\"\n\x7d\n", none) := by decide +kernel

end BootConfig
