import BootConfig.Proofs.Tree.Entries

/-!
# Equality of keys

Key equality is reflexive and transitive. It is symmetric on trees whose mappings have distinct keys
at every depth, keys included.
-/

namespace BootConfig

namespace Double

theorem same_refl (x : Double) : x.same x = true := by
  cases x <;> simp [same]

theorem same_symm {x y : Double} (h : x.same y = true) : y.same x = true := by
  cases x <;> cases y <;>
    simp only [same, Bool.and_eq_true, Bool.or_eq_true, beq_iff_eq, Bool.false_eq_true] at h ⊢
  case infinite.infinite => exact h.symm
  case finite.finite =>
    obtain ⟨rfl, hz⟩ := h
    exact ⟨rfl, hz.imp_right fun h => ⟨h.1.symm, h.2.symm⟩⟩

theorem same_trans {x y z : Double} (h : x.same y = true) (h' : y.same z = true) :
    x.same z = true := by
  cases x <;> cases y <;> cases z <;>
    simp only [same, Bool.and_eq_true, Bool.or_eq_true, beq_iff_eq, Bool.false_eq_true] at h h' ⊢
  case infinite.infinite.infinite => exact h.trans h'
  case finite.finite.finite =>
    obtain ⟨rfl, hz⟩ := h
    obtain ⟨rfl, hz'⟩ := h'
    exact ⟨rfl, hz.elim Or.inl fun h => hz'.imp_right fun h' => ⟨h.1.trans h'.1, h.2.trans h'.2⟩⟩

end Double

/-- No key is the same as one behind it. -/
def Entries.Apart (es : Entries) : Prop := es.Pairwise fun e e' => e.1.same e'.1 = false

namespace Tree

mutual

/-- The keys of all mappings are distinct, also within keys, and all scalars satisfy `leaf`. -/
def Keyed (leaf : Tree → Prop) : Tree → Prop
  | seq items => KeyedItems leaf items
  | map entries => Entries.Apart entries ∧ KeyedEntries leaf entries
  | tagged _ value => Keyed leaf value
  | t => leaf t

def KeyedItems (leaf : Tree → Prop) : List Tree → Prop
  | [] => True
  | t :: ts => Keyed leaf t ∧ KeyedItems leaf ts

def KeyedEntries (leaf : Tree → Prop) : Entries → Prop
  | [] => True
  | (k, v) :: es => Keyed leaf k ∧ Keyed leaf v ∧ KeyedEntries leaf es

end

variable {leaf : Tree → Prop}

theorem keyedItems_iff {ts : List Tree} : KeyedItems leaf ts ↔ ∀ t ∈ ts, Keyed leaf t := by
  induction ts with
  | nil => simp [KeyedItems]
  | cons t ts ih => simp [KeyedItems, ih]

theorem keyedEntries_iff {es : Entries} :
    KeyedEntries leaf es ↔ ∀ e ∈ es, Keyed leaf e.1 ∧ Keyed leaf e.2 := by
  induction es with
  | nil => simp [KeyedEntries]
  | cons e es ih =>
      obtain ⟨k, v⟩ := e
      simp [KeyedEntries, ih, and_assoc]

/-! ## Entries of equal mappings -/

/-- Entries with the same key and the same value. -/
def SameEntry (e e' : Tree × Tree) : Prop := e.1.same e'.1 = true ∧ e.2.same e'.2 = true

theorem sameEntries_iff {as bs : Entries} :
    sameEntries as bs = true ↔ ∀ a ∈ as, ∃ b ∈ bs, SameEntry a b := by
  induction as with
  | nil => simp [sameEntries]
  | cons a as ih =>
      obtain ⟨k, v⟩ := a
      simp [sameEntries, ih, SameEntry]

mutual

theorem same_refl : (t : Tree) → t.same t = true
  | .null => rfl
  | .bool _ | .int _ | .str _ => by simp [same]
  | .float x => x.same_refl
  | .seq ts => sameItems_refl ts
  | .map es => by
      have h : sameEntries es es = true :=
        sameEntries_iff.mpr fun e he => ⟨e, he, sameEntry_refl es e he⟩
      simp [same, h]
  | .tagged _ t => by simp [same, same_refl t]

theorem sameItems_refl : (ts : List Tree) → sameItems ts ts = true
  | [] => rfl
  | t :: ts => by simp [sameItems, same_refl t, sameItems_refl ts]

theorem sameEntry_refl : (es : Entries) → ∀ e ∈ es, SameEntry e e
  | [] => by simp
  | (k, v) :: es => List.forall_mem_cons.mpr ⟨⟨same_refl k, same_refl v⟩, sameEntry_refl es⟩

end

mutual

theorem same_trans : (a : Tree) → {b c : Tree} → a.same b = true → b.same c = true → a.same c = true
  | .null, b, c, h, h' => by cases b <;> cases c <;> simp_all [same]
  | .bool _, b, c, h, h' | .int _, b, c, h, h' | .str _, b, c, h, h' => by
      cases b <;> cases c <;> simp_all [same]
  | .float x, b, c, h, h' => by
      cases b <;> cases c <;> simp only [same, Bool.false_eq_true] at h h' ⊢
      exact Double.same_trans h h'
  | .seq ts, b, c, h, h' => by
      cases b <;> cases c <;> simp only [same, Bool.false_eq_true] at h h' ⊢
      exact sameItems_trans ts h h'
  | .map es, b, c, h, h' => by
      cases b <;> cases c <;>
        simp only [same, Bool.false_eq_true, Bool.and_eq_true, beq_iff_eq,
        sameEntries_iff] at h h' ⊢
      refine ⟨h.1.trans h'.1, fun e he => ?_⟩
      obtain ⟨e', he', hs⟩ := h.2 e he
      obtain ⟨e'', he'', hs'⟩ := h'.2 e' he'
      exact ⟨e'', he'', sameEntry_trans es e he hs hs'⟩
  | .tagged _ t, b, c, h, h' => by
      cases b <;> cases c <;>
        simp only [same, Bool.false_eq_true, Bool.and_eq_true, beq_iff_eq] at h h' ⊢
      exact ⟨h.1.trans h'.1, same_trans t h.2 h'.2⟩

theorem sameItems_trans : (as : List Tree) → {bs cs : List Tree} → sameItems as bs = true →
    sameItems bs cs = true → sameItems as cs = true
  | [], [], _, _, h' => h'
  | a :: as, b :: bs, c :: cs, h, h' => by
      simp only [sameItems, Bool.and_eq_true] at h h' ⊢
      exact ⟨same_trans a h.1 h'.1, sameItems_trans as h.2 h'.2⟩
  | _ :: _, [], _, h, _ | _ :: _, _ :: _, [], _, h => by cases h

theorem sameEntry_trans : (es : Entries) →
    ∀ e ∈ es, ∀ {e' e'' : Tree × Tree}, SameEntry e e' → SameEntry e' e'' → SameEntry e e''
  | [], _, h, _, _ => by cases h
  | (k, v) :: es, e, h, _, _ => by
      rcases List.mem_cons.mp h with rfl | h
      · exact fun h h' => ⟨same_trans k h.1 h'.1, same_trans v h.2 h'.2⟩
      · exact sameEntry_trans es e h

end

/-- Where no two of some things are related to one, and there are as many others, each of these is
related to one of the first. -/
theorem exists_related {α β : Type} {r : α → β → Prop} : {as : List α} → {bs : List β} →
    as.length = bs.length → (∀ a ∈ as, ∃ b ∈ bs, r a b) →
    as.Pairwise (fun a a' => ∀ b, r a b → ¬r a' b) → ∀ b ∈ bs, ∃ a ∈ as, r a b
  | [], bs, hl, _, _, b, hb => by
      rw [List.length_eq_zero_iff.mp hl.symm] at hb
      cases hb
  | a :: as, bs, hl, hr, hp, b, hb => by
      obtain ⟨ha, has⟩ := List.forall_mem_cons.mp hr
      obtain ⟨ha', hp⟩ := List.pairwise_cons.mp hp
      obtain ⟨b₀, hb₀, hab⟩ := ha
      obtain ⟨front, back, rfl⟩ := List.append_of_mem hb₀
      have hrest : ∀ a' ∈ as, ∃ b ∈ front ++ back, r a' b := fun a' hm => by
        obtain ⟨b', hb', hr'⟩ := has a' hm
        have hne : b' ≠ b₀ := fun he => ha' a' hm b₀ hab (he ▸ hr')
        exact ⟨b', by simpa [hne] using hb', hr'⟩
      by_cases he : b = b₀
      · exact ⟨a, by simp, he ▸ hab⟩
      · obtain ⟨a', hm, hr'⟩ :=
          exists_related (by simpa [← Nat.add_assoc] using hl) hrest hp b (by simpa [he] using hb)
        exact ⟨a', List.mem_cons_of_mem _ hm, hr'⟩

/-- Entries whose keys and values are the same in the other direction as well. -/
def SymmEntries (leaf : Tree → Prop) (es : Entries) : Prop :=
  ∀ e ∈ es, ∀ t : Tree, t.Keyed leaf → (e.1.same t = true → t.same e.1 = true) ∧
    (e.2.same t = true → t.same e.2 = true)

theorem sameEntries_symm {as bs : Entries} (hs : SymmEntries leaf as) (ha : as.Apart)
    (hb : KeyedEntries leaf bs)
    (hl : as.length = bs.length) (h : sameEntries as bs = true) : sameEntries bs as = true := by
  have hkeyed := keyedEntries_iff.mp hb
  -- The entries are as many, and no two of the first have the same partner, as their keys would be
  -- the same.
  have hback : ∀ b ∈ bs, ∃ a ∈ as, b ∈ bs ∧ SameEntry a b := by
    refine exists_related (r := fun a b => b ∈ bs ∧ SameEntry a b) hl (fun a hm => ?_) ?_
    · obtain ⟨b, hbm, hab⟩ := sameEntries_iff.mp h a hm
      exact ⟨b, hbm, hbm, hab⟩
    · refine ha.imp_of_mem fun {a a'} _ hm' hne b hab hab' => ?_
      have hba' : b.1.same a'.1 = true := (hs a' hm' b.1 (hkeyed b hab.1).1).1 hab'.2.1
      rw [same_trans a.1 hab.2.1 hba'] at hne
      cases hne
  refine sameEntries_iff.mpr fun b hm => ?_
  obtain ⟨a, ham, _, hk, hv⟩ := hback b hm
  exact ⟨a, ham, (hs a ham b.1 (hkeyed b hm).1).1 hk, (hs a ham b.2 (hkeyed b hm).2).2 hv⟩

mutual

theorem same_symm : (a : Tree) → {b : Tree} → a.Keyed leaf → b.Keyed leaf → a.same b = true →
    b.same a = true
  | .null, b, _, _, h => by cases b <;> simp_all [same]
  | .bool _, b, _, _, h | .int _, b, _, _, h | .str _, b, _, _, h => by cases b <;> simp_all [same]
  | .float x, b, _, _, h => by
      cases b <;> simp only [same, Bool.false_eq_true] at h ⊢
      exact Double.same_symm h
  | .seq ts, b, ha, hb, h => by
      cases b <;> simp only [same, Bool.false_eq_true] at h ⊢
      exact sameItems_symm ts ha hb h
  | .map es, b, ha, hb, h => by
      cases b <;> simp only [same, Bool.false_eq_true, Bool.and_eq_true, beq_iff_eq] at h ⊢
      exact ⟨h.1.symm, sameEntries_symm (symmEntries es ha.2) ha.1 hb.2 h.1 h.2⟩
  | .tagged _ t, b, ha, hb, h => by
      cases b <;> simp only [same, Bool.false_eq_true, Bool.and_eq_true, beq_iff_eq] at h ⊢
      exact ⟨h.1.symm, same_symm t ha hb h.2⟩

theorem sameItems_symm : (as : List Tree) → {bs : List Tree} → KeyedItems leaf as →
    KeyedItems leaf bs → sameItems as bs = true → sameItems bs as = true
  | [], [], _, _, _ => rfl
  | a :: as, b :: bs, ha, hb, h => by
      simp only [sameItems, Bool.and_eq_true] at h ⊢
      exact ⟨same_symm a ha.1 hb.1 h.1, sameItems_symm as ha.2 hb.2 h.2⟩
  | [], _ :: _, _, _, h | _ :: _, [], _, _, h => by cases h

theorem symmEntries : (es : Entries) → KeyedEntries leaf es → SymmEntries leaf es
  | [], _ => fun _ h => by cases h
  | (k, v) :: es, h => List.forall_mem_cons.mpr
      ⟨fun _ ht => ⟨same_symm k h.1 ht, same_symm v h.2.1 ht⟩, symmEntries es h.2.2⟩

end

theorem same_comm {a b : Tree} (ha : a.Keyed leaf) (hb : b.Keyed leaf) : a.same b = b.same a :=
  Bool.eq_iff_iff.mpr ⟨same_symm a ha hb, same_symm b hb ha⟩

/-- Where a key stands twice, the other direction can fail. -/
example : same (.map [(.null, .null), (.null, .null)])
    (.map [(.null, .null), (.bool true, .null)]) = true ∧
    same (.map [(.null, .null), (.bool true, .null)])
    (.map [(.null, .null), (.null, .null)]) = false := by decide +kernel

end Tree

end BootConfig
