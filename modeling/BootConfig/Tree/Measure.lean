import BootConfig.Tree.Entries

/-!
# How large a tree is

The number of nodes of a tree and how deep its collections are nested, keys included. A tag adds
nothing to the value inside it.
-/

namespace BootConfig.Tree

mutual

/-- The number of nodes. -/
def size : Tree → Nat
  | seq items => sizeItems items + 1
  | map entries => sizeEntries entries + 1
  | tagged _ value => size value
  | _ => 1

def sizeItems : List Tree → Nat
  | [] => 0
  | t :: ts => size t + sizeItems ts

def sizeEntries : Entries → Nat
  | [] => 0
  | (k, v) :: es => size k + size v + sizeEntries es

end

mutual

/-- The greatest number of collections inside each other. -/
def nesting : Tree → Nat
  | seq items => nestingItems items + 1
  | map entries => nestingEntries entries + 1
  | tagged _ value => nesting value
  | _ => 0

def nestingItems : List Tree → Nat
  | [] => 0
  | t :: ts => max (nesting t) (nestingItems ts)

def nestingEntries : Entries → Nat
  | [] => 0
  | (k, v) :: es => max (max (nesting k) (nesting v)) (nestingEntries es)

end

/-! ## Elements -/

theorem sizeItems_append (ts ts' : List Tree) :
    sizeItems (ts ++ ts') = sizeItems ts + sizeItems ts' := by
  induction ts with
  | nil => exact (Nat.zero_add _).symm
  | cons t ts ih => rw [List.cons_append, sizeItems, sizeItems, ih, Nat.add_assoc]

theorem sizeItems_reverse (ts : List Tree) : sizeItems ts.reverse = sizeItems ts := by
  induction ts with
  | nil => rfl
  | cons t ts ih =>
      have ht : sizeItems [t] = size t := rfl
      rw [List.reverse_cons, sizeItems_append, ih, ht, sizeItems, Nat.add_comm]

theorem nestingItems_le {n : Nat} {ts : List Tree} :
    nestingItems ts ≤ n ↔ ∀ t ∈ ts, t.nesting ≤ n := by
  induction ts with
  | nil => simp [nestingItems]
  | cons t ts ih => rw [nestingItems, Nat.max_le, ih, List.forall_mem_cons]

theorem nestingItems_reverse (ts : List Tree) : nestingItems ts.reverse = nestingItems ts := by
  have hmem : ∀ n, nestingItems ts.reverse ≤ n ↔ nestingItems ts ≤ n := by
    intro n
    simp only [nestingItems_le, List.mem_reverse]
  exact Nat.le_antisymm ((hmem _).mpr (Nat.le_refl _)) ((hmem _).mp (Nat.le_refl _))

/-! ## Entries -/

theorem nestingEntries_le {n : Nat} {es : Entries} :
    nestingEntries es ≤ n ↔ ∀ e ∈ es, e.1.nesting ≤ n ∧ e.2.nesting ≤ n := by
  induction es with
  | nil => simp [nestingEntries]
  | cons e es ih =>
      obtain ⟨k, v⟩ := e
      rw [nestingEntries, Nat.max_le, Nat.max_le, ih, List.forall_mem_cons]

theorem sizeEntries_put_le (key value : Tree) (es : Entries) :
    sizeEntries (es.put key value) ≤ sizeEntries es + (key.size + value.size) := by
  induction es with
  | nil => simp [Entries.put, sizeEntries]
  | cons e es ih =>
      obtain ⟨k, v⟩ := e
      rw [Entries.put]
      split
      · simp only [sizeEntries]
        omega
      · simp only [sizeEntries]
        omega

theorem nestingEntries_put_le {n : Nat} {key value : Tree} {es : Entries} (hk : key.nesting ≤ n)
    (hv : value.nesting ≤ n)
    (hes : nestingEntries es ≤ n) : nestingEntries (es.put key value) ≤ n := by
  induction es with
  | nil => exact Nat.max_le.mpr ⟨Nat.max_le.mpr ⟨hk, hv⟩, hes⟩
  | cons e es ih =>
      obtain ⟨k, v⟩ := e
      rw [nestingEntries, Nat.max_le, Nat.max_le] at hes
      obtain ⟨⟨hk', hv'⟩, hes⟩ := hes
      rw [Entries.put]
      split
      · exact Nat.max_le.mpr ⟨Nat.max_le.mpr ⟨hk', hv⟩, hes⟩
      · exact Nat.max_le.mpr ⟨Nat.max_le.mpr ⟨hk', hv'⟩, ih hes⟩

end BootConfig.Tree
