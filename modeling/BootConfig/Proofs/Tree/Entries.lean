import BootConfig.Tree.Parts

/-!
# Entries of a mapping

What insertion, replacement and removal do to the keys and values of a mapping.
-/

namespace BootConfig

theorem Tree.same_str_iff {k : Tree} {s : String} : k.same (.str s) = true ↔ k = .str s := by
  cases k <;> simp [Tree.same]

theorem Tree.text?_eq_some {k : Tree} {s : String} : k.text? = some s ↔ k = .str s := by
  cases k <;> simp [Tree.text?]

namespace Entries

/-! ## Look-up -/

theorem mem_of_find? {key v : Tree} {es : Entries} (h : find? key es = some v) :
    ∃ k, k.same key = true ∧ (k, v) ∈ es := by
  induction es with
  | nil => cases h
  | cons e es ih =>
      obtain ⟨k, w⟩ := e
      simp only [find?] at h
      split at h
      · rename_i hk; cases h; exact ⟨k, hk, by simp⟩
      · obtain ⟨k', hk', hm⟩ := ih h; exact ⟨k', hk', List.mem_cons_of_mem _ hm⟩

end Entries

/-- What holds of all nodes of a mapping holds of those of a value in it. -/
theorem Tree.All.find? {leaf : Tree → Prop} {mapping : Entries → Prop} {es : Entries} {key v : Tree}
    (h : Tree.All leaf mapping (.map es)) (hf : es.find? key = some v) : v.All leaf mapping := by
  obtain ⟨k, _, hm⟩ := Entries.mem_of_find? hf
  exact Tree.allEntries_iff.mp h.2 _ hm

namespace Entries

theorem find?_eq_none {key : Tree} {es : Entries} :
    find? key es = none ↔ ∀ e ∈ es, e.1.same key = false := by
  induction es with
  | nil => simp [find?]
  | cons e es ih =>
      obtain ⟨k, v⟩ := e
      simp only [find?]
      split <;> simp_all

theorem has_eq_false {key : Tree} {es : Entries} :
    has key es = false ↔ ∀ e ∈ es, e.1.same key = false := by
  rw [has, Option.isSome_eq_false_iff, Option.isNone_iff_eq_none, find?_eq_none]

theorem mem_names {s : String} {es : Entries} : s ∈ es.names ↔ ∃ v, (.str s, v) ∈ es := by
  simp only [names, List.mem_filterMap, List.mem_map, Tree.text?_eq_some]
  constructor
  · rintro ⟨_, ⟨⟨_, v⟩, he, rfl⟩, rfl⟩; exact ⟨v, he⟩
  · rintro ⟨v, hv⟩; exact ⟨_, ⟨_, hv, rfl⟩, rfl⟩

theorem find?_str_eq_none {s : String} {es : Entries} :
    find? (.str s) es = none ↔ s ∉ es.names := by
  rw [find?_eq_none, mem_names]
  constructor
  · rintro h ⟨v, hv⟩
    have := h _ hv
    rw [Tree.same_str_iff.mpr rfl] at this
    cases this
  · intro h e he
    cases hs : e.1.same (.str s) with
    | false => rfl
    | true => exact absurd ⟨e.2, by rw [← Tree.same_str_iff.mp hs]; exact he⟩ h

/-- Of a text that is the key of one entry at most, look-up finds all there is. -/
theorem find?_of_mem {s : String} {v : Tree} {es : Entries} (h1 : es.OneEach)
    (hm : (.str s, v) ∈ es) : find? (.str s) es = some v := by
  induction es with
  | nil => cases hm
  | cons e es ih =>
      obtain ⟨k, w⟩ := e
      simp only [find?]
      cases hk : k.same (.str s) with
      | true =>
          have hks := Tree.same_str_iff.mp hk
          subst hks
          rcases List.mem_cons.mp hm with he | hm
          · cases he; rfl
          · have hn : s ∈ names es := mem_names.mpr ⟨v, hm⟩
            simp only [OneEach, names, List.map_cons, List.filterMap_cons, Tree.text?,
              List.nodup_cons] at h1
            exact absurd hn h1.1
      | false =>
          have hne : (Tree.str s, v) ∈ es := by
            rcases List.mem_cons.mp hm with he | hm
            · cases he; rw [Tree.same_str_iff.mpr rfl] at hk; cases hk
            · exact hm
          have h1' : OneEach es := by
            simp only [OneEach, names, List.map_cons, List.filterMap_cons] at h1 ⊢
            split at h1
            · exact h1
            · exact (List.nodup_cons.mp h1).2
          exact ih h1' hne

/-! ## Insertion -/

theorem keys_put_of_has {key value : Tree} {es : Entries} (h : has key es = true) :
    (put key value es).map (·.1) = es.map (·.1) := by
  induction es with
  | nil => cases h
  | cons e es ih =>
      obtain ⟨k, v⟩ := e
      simp only [put]
      split
      · rfl
      · rename_i hk
        rw [List.map_cons, List.map_cons, ih (by simpa [has, find?, hk] using h)]

theorem put_of_not_has {key value : Tree} {es : Entries} (h : has key es = false) :
    put key value es = es ++ [(key, value)] := by
  induction es with
  | nil => rfl
  | cons e es ih =>
      obtain ⟨k, v⟩ := e
      simp only [has, find?] at h
      split at h
      · cases h
      · rename_i hk; simp only [put, hk, Bool.false_eq_true, if_false, List.cons_append, ih h]

theorem has_str {s : String} {es : Entries} : has (.str s) es = true ↔ s ∈ es.names := by
  rw [has, Option.isSome_iff_ne_none, Ne, find?_str_eq_none, Decidable.not_not]

theorem names_append (es es' : Entries) : names (es ++ es') = es.names ++ es'.names := by
  simp only [names, List.map_append, List.filterMap_append]

theorem OneEach.append_new {key value : Tree} {es : Entries} (h : es.OneEach)
    (hn : has key es = false) : OneEach (es ++ [(key, value)]) := by
  rw [OneEach, names_append, List.nodup_append]
  refine ⟨h, ?_, ?_⟩
  · cases hk : key.text? <;> simp [names, hk]
  · intro a ha b hb heq
    subst heq
    obtain ⟨w, hw⟩ := mem_names.mp hb
    simp only [List.mem_singleton, Prod.mk.injEq] at hw
    rw [← hw.1, has_str.mpr ha] at hn
    cases hn

theorem OneEach.put {key : Tree} {es : Entries} (value : Tree) (h : es.OneEach) :
    (Entries.put key value es).OneEach := by
  cases hk : has key es with
  | true => rwa [OneEach, names, keys_put_of_has hk]
  | false => rw [put_of_not_has hk]; exact h.append_new hk

theorem mem_put {key value : Tree} {es : Entries} {e : Tree × Tree} (h : e ∈ put key value es) :
    e ∈ es ∨ e.2 = value := by
  induction es with
  | nil => simp only [put, List.mem_singleton] at h; exact Or.inr (by rw [h])
  | cons e' es ih =>
      obtain ⟨k, v⟩ := e'
      simp only [put] at h
      split at h
      · rcases List.mem_cons.mp h with rfl | h
        · exact Or.inr rfl
        · exact Or.inl (List.mem_cons_of_mem _ h)
      · rcases List.mem_cons.mp h with rfl | h
        · exact Or.inl (by simp)
        · exact (ih h).imp_left (List.mem_cons_of_mem _)

theorem mem_putNew_iff {key value : Tree} {es : Entries} {e : Tree × Tree} :
    e ∈ putNew key value es ↔ e ∈ es ∨ has key es = false ∧ e = (key, value) := by
  unfold putNew
  split <;> simp [*]

/-! ## Replacement and removal -/

theorem keys_adjust (key value : Tree) (es : Entries) :
    (adjust key value es).map (·.1) = es.map (·.1) := by
  induction es with
  | nil => rfl
  | cons e es ih =>
      obtain ⟨k, v⟩ := e
      simp only [adjust]
      split
      · rfl
      · rw [List.map_cons, List.map_cons, ih]

theorem adjust_of_find? {key value : Tree} {es : Entries} (h : find? key es = some value) :
    adjust key value es = es := by
  induction es with
  | nil => rfl
  | cons e es ih =>
      obtain ⟨k, v⟩ := e
      simp only [find?] at h
      simp only [adjust]
      split
      · rename_i hk; rw [if_pos hk] at h; cases h; rfl
      · rename_i hk; rw [if_neg hk] at h; rw [ih h]

theorem find?_adjust {key v : Tree} {es : Entries} (h : find? key es = some v) (w : Tree) :
    find? key (adjust key w es) = some w := by
  induction es with
  | nil => cases h
  | cons e es ih =>
      obtain ⟨k, u⟩ := e
      simp only [find?] at h
      simp only [adjust]
      cases hk : k.same key with
      | true => simp [find?, hk]
      | false =>
          rw [hk] at h
          simp [find?, hk, ih h]

theorem OneEach.adjust {es : Entries} (h : es.OneEach) (key value : Tree) :
    (Entries.adjust key value es).OneEach := by
  rwa [OneEach, names, keys_adjust]

theorem mem_adjust {key value : Tree} {es : Entries} {e : Tree × Tree}
    (h : e ∈ adjust key value es) : e ∈ es ∨ e.2 = value := by
  induction es with
  | nil => cases h
  | cons e' es ih =>
      obtain ⟨k, v⟩ := e'
      simp only [adjust] at h
      split at h
      · rcases List.mem_cons.mp h with rfl | h
        · exact Or.inr rfl
        · exact Or.inl (List.mem_cons_of_mem _ h)
      · rcases List.mem_cons.mp h with rfl | h
        · exact Or.inl List.mem_cons_self
        · exact (ih h).imp_left (List.mem_cons_of_mem _)

theorem drop_sublist (key : Tree) (es : Entries) : (drop key es).Sublist es := by
  induction es with
  | nil => exact List.Sublist.refl _
  | cons e es ih =>
      obtain ⟨k, v⟩ := e
      simp only [drop]
      split
      · exact List.sublist_cons_self _ _
      · exact ih.cons_cons _

theorem find?_put (s : String) (value : Tree) (es : Entries) :
    find? (.str s) (put (.str s) value es) = some value := by
  induction es with
  | nil => simp [put, find?, Tree.same]
  | cons e es ih =>
      obtain ⟨k, v⟩ := e
      simp only [put]
      cases hk : k.same (.str s) with
      | true => simp [find?, hk]
      | false => simp [find?, hk, ih]

theorem find?_put_of_ne {s s' : String} (h : s ≠ s') (value : Tree) (es : Entries) :
    find? (.str s) (put (.str s') value es) = find? (.str s) es := by
  induction es with
  | nil => simpa [put, find?, Tree.same] using fun h' => h h'.symm
  | cons e es ih =>
      obtain ⟨k, v⟩ := e
      simp only [put]
      cases hk : k.same (.str s') with
      | true =>
          have hne : k.same (.str s) = false := by
            rw [Tree.same_str_iff.mp hk]
            simpa [Tree.same] using fun h' => h h'.symm
          simp [find?, hne]
      | false => simp [find?, ih]

theorem find?_drop {s s' : String} (h : s ≠ s') (es : Entries) :
    find? (.str s) (drop (.str s') es) = find? (.str s) es := by
  induction es with
  | nil => rfl
  | cons e es ih =>
      obtain ⟨k, v⟩ := e
      simp only [drop]
      cases hk : k.same (.str s') with
      | true =>
          have hne : k.same (.str s) = false := by
            rw [Tree.same_str_iff.mp hk]
            simpa [Tree.same] using fun h' => h h'.symm
          simp [find?, hne]
      | false => simp [find?, ih]

theorem OneEach.sublist {es es' : Entries} (h : es.OneEach) (hs : es'.Sublist es) : es'.OneEach :=
  List.Nodup.sublist (List.Sublist.filterMap _ (hs.map _)) h

theorem not_mem_names_drop {s : String} {es : Entries} (h : es.OneEach) :
    s ∉ (drop (.str s) es).names := by
  induction es with
  | nil => simp [drop, names]
  | cons e es ih =>
      obtain ⟨k, v⟩ := e
      have h1 : OneEach es := h.sublist (List.sublist_cons_self _ _)
      simp only [drop]
      split
      · rename_i hk
        have hks := Tree.same_str_iff.mp hk
        subst hks
        simp only [OneEach, names, List.map_cons, List.filterMap_cons, Tree.text?,
          List.nodup_cons] at h
        exact h.1
      · rename_i hk
        rw [mem_names]
        rintro ⟨w, hw⟩
        rcases List.mem_cons.mp hw with he | hw
        · cases he; exact hk (Tree.same_str_iff.mpr rfl)
        · exact ih h1 (mem_names.mpr ⟨w, hw⟩)

/-! ## Taking the merge key out -/

theorem lastFirst_perm (es : Entries) : (lastFirst es).Perm es := by
  unfold lastFirst
  split
  · rename_i h; rw [List.getLast?_eq_none_iff.mp h]
  · rename_i e h
    obtain ⟨ys, rfl⟩ := List.getLast?_eq_some_iff.mp h
    rw [List.dropLast_concat]
    exact (List.perm_append_singleton e ys).symm

theorem take?_perm {key v : Tree} {es rest : Entries} (h : take? key es = some (v, rest)) :
    ∃ k, k.same key = true ∧ ((k, v) :: rest).Perm es := by
  induction es generalizing rest with
  | nil => cases h
  | cons e es ih =>
      obtain ⟨k, w⟩ := e
      simp only [take?] at h
      split at h
      · rename_i hk
        cases h
        exact ⟨k, hk, (lastFirst_perm es).cons _⟩
      · obtain ⟨⟨v', rest'⟩, ht, he⟩ := Option.map_eq_some_iff.mp h
        cases he
        obtain ⟨k', hk', hp⟩ := ih ht
        exact ⟨k', hk', (List.Perm.swap _ _ _).trans (hp.cons _)⟩

theorem OneEach.perm {es es' : Entries} (h : es.OneEach) (hp : es'.Perm es) : es'.OneEach :=
  ((hp.map _).filterMap _).nodup_iff.mpr h

theorem take?_eq_none {key : Tree} {es : Entries} : take? key es = none ↔ find? key es = none := by
  induction es with
  | nil => simp [take?, find?]
  | cons e es ih =>
      obtain ⟨k, v⟩ := e
      simp only [take?, find?]
      split
      · simp
      · simpa using ih

end Entries

end BootConfig
