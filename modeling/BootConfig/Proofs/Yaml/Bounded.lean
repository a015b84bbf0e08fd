import BootConfig.Proofs.Yaml.Merged
import BootConfig.Proofs.Yaml.Scalars
import BootConfig.Proofs.Yaml.Whole
import BootConfig.Tree.Measure

/-!
# How large a tree can be

Every node of a tree that is read is paid for by an item that is left behind, or by the innermost
alias that was followed to it: what an alias stands for begins and ends in the document, and pays
for as many nodes as the document has items. The depth of collections is spent on the way down.
-/

namespace BootConfig.Yaml

open Steps

namespace Build

variable {s : Source} {p p' p₁ : Progress} {a b c : Nat}

/-! ## Expenses -/

/-- From one progress to another, the nodes read grow from `a` to `b` at the expense of items and
aliases. -/
structure Spends (s : Source) (a b : Nat) (p p' : Progress) : Prop where
  rest : p'.rest.length ≤ p.rest.length
  nodes : b + p'.rest.length + s.size * p.jumps ≤ a + p.rest.length + s.size * p'.jumps
  jumps : p.jumps ≤ s.maxJumps → p'.jumps ≤ s.maxJumps

namespace Spends

theorem refl : Spends s a a p p := ⟨Nat.le_refl _, Nat.le_refl _, id⟩

theorem trans (h : Spends s a b p p₁) (h' : Spends s b c p₁ p') : Spends s a c p p' where
  rest := Nat.le_trans h'.rest h.rest
  nodes := by
    have h := h.nodes
    have h' := h'.nodes
    omega
  jumps hj := h'.jumps (h.jumps hj)

/-- Nodes that were read before stay. -/
theorem after (h : Spends s 0 b p p') (n : Nat) : Spends s n (n + b) p p' where
  rest := h.rest
  nodes := by
    have h := h.nodes
    omega
  jumps := h.jumps

theorem mono (h : Spends s a b p p') (hc : c ≤ b) : Spends s a c p p' where
  rest := h.rest
  nodes := by
    have h := h.nodes
    omega
  jumps := h.jumps

/-- An item that is left behind pays for a node. -/
theorem item {i : Item} (hrest : p.rest = i :: p'.rest) (hjumps : p'.jumps = p.jumps) :
    Spends s a (a + 1) p p' where
  rest := by rw [hrest]; exact Nat.le_succ _
  nodes := by
    rw [hrest, hjumps, List.length_cons]
    omega
  jumps := by
    rw [hjumps]
    exact id

end Spends

/-! ## Collections -/

/-- A node that is read, with collections of at most the given depth. -/
structure Reads (s : Source) (depth : Nat) (t : Tree) (p p' : Progress) : Prop where
  spends : Spends s 0 t.size p p'
  shorter : p'.rest.length < p.rest.length
  nesting : t.nesting ≤ depth

/-- A reader whose nodes are paid for. -/
abbrev Bounded (s : Source) (depth : Nat) (read : Reader) : Prop :=
  ∀ path p t p', read path p = .ok (t, p') → Reads s depth t p p'

variable {depth : Nat}

/-- The end of a collection pays for nothing. -/
theorem end_spends {i : Item} {rest : List Item} (hrest : p.rest = i :: rest) :
    Spends s a a p { p with rest := rest } := by
  have hspends : Spends s a (a + 1) p { p with rest := rest } := .item hrest rfl
  exact hspends.mono (Nat.le_succ a)

theorem elements_spend {read : Reader} (hread : Bounded s depth read) (path : Path) :
    (fuel index : Nat) → (acc : List Tree) → (p : Progress) → {ts : List Tree} → {p' : Progress} →
    Tree.nestingItems acc ≤ depth → elements s read path fuel index acc p = .ok (ts, p') →
    Spends s (Tree.sizeItems acc) (Tree.sizeItems ts) p p' ∧ Tree.nestingItems ts ≤ depth
  | 0, _, acc, p, _, _, hacc, h => by
      cases h
      rw [Tree.sizeItems_reverse, Tree.nestingItems_reverse]
      exact ⟨.refl, hacc⟩
  | fuel + 1, index, acc, p, ts, p', hacc, h => by
      obtain ⟨i, rest, hrest, ⟨_, rfl, rfl⟩ | ⟨_, t, p₁, ht, h⟩⟩ := elements_step h
      · rw [Tree.sizeItems_reverse, Tree.nestingItems_reverse]
        exact ⟨end_spends hrest, hacc⟩
      · have hreads := hread _ _ _ _ ht
        obtain ⟨hspends, hts⟩ :=
          elements_spend hread path fuel _ (t :: acc) p₁ (Nat.max_le.mpr ⟨hreads.nesting, hacc⟩) h
        rw [Tree.sizeItems, Nat.add_comm] at hspends
        exact ⟨(hreads.spends.after _).trans hspends, hts⟩

theorem entries_spend {read : Reader} (hread : Bounded s depth read) (path : Path) :
    (fuel : Nat) → (acc : Entries) → (p : Progress) → {es : Entries} → {p' : Progress} →
    Tree.nestingEntries acc ≤ depth → entries s read path fuel acc p = .ok (es, p') →
    Spends s (Tree.sizeEntries acc) (Tree.sizeEntries es) p p' ∧ Tree.nestingEntries es ≤ depth
  | 0, acc, p, _, _, hacc, h => by
      cases h
      exact ⟨.refl, hacc⟩
  | fuel + 1, acc, p, es, p', hacc, h => by
      obtain ⟨i, rest, hrest, ⟨_, rfl, rfl⟩ | ⟨_, key, p₁, value, p₂, hkey, hvalue, h⟩⟩ :=
        entries_step h
      · exact ⟨end_spends hrest, hacc⟩
      · have hkey := hread _ _ _ _ hkey
        have hvalue := hread _ _ _ _ hvalue
        obtain ⟨hspends, hes⟩ :=
          entries_spend hread path fuel _ p₂
            (Tree.nestingEntries_put_le hkey.nesting hvalue.nesting hacc) h
        -- an entry takes the place of one with its key, so the nodes grow by no more than the new
        -- ones
        have hput := Tree.sizeEntries_put_le key value acc
        rw [← Nat.add_assoc] at hput
        exact ⟨(((hkey.spends.after _).trans (hvalue.spends.after _)).mono hput).trans hspends, hes⟩

/-! ## Nodes -/

theorem size_named (tag : Option TagText) (t : Tree) : (named tag t).size = t.size := by
  unfold named
  split <;> rfl

theorem nesting_named (tag : Option TagText) (t : Tree) : (named tag t).nesting = t.nesting := by
  unfold named
  split <;> rfl

/-- Nodes inside a collection may be less deep than it. -/
abbrev BoundedInner (s : Source) (depth : Nat) (inner : Option Reader) : Prop :=
  ∀ read ∈ inner, ∃ d, depth = d + 1 ∧ Bounded s d read

variable {inner : Option Reader} {i : Item} {path : Path} {t : Tree}

theorem scalar_single {c : Scalar} (h : Resolve.scalar s.input c = .ok t) :
    t.size = 1 ∧ t.nesting = 0 := by
  have hm := Resolve.scalar_meant h
  cases t with
  | seq _ | map _ | tagged _ _ => cases hm
  | _ => exact ⟨rfl, rfl⟩

theorem content_spends (hi : BoundedInner s depth inner)
    (h : content s inner i path p = .ok (t, p')) : Spends s 1 t.size p p' ∧ t.nesting ≤ depth := by
  cases content_step h with
  | scalar _ hv =>
      obtain ⟨hsize, hnesting⟩ := scalar_single hv
      rw [size_named, nesting_named, hsize, hnesting]
      exact ⟨.refl, Nat.zero_le _⟩
  | sequence _ hinner hts =>
      obtain ⟨d, rfl, hread⟩ := hi _ hinner
      obtain ⟨hspends, hnesting⟩ := elements_spend hread path _ _ [] p (Nat.zero_le d) hts
      rw [size_named, nesting_named, Tree.size, Nat.add_comm]
      exact ⟨hspends.after 1, Nat.succ_le_succ hnesting⟩
  | mapping _ hinner hes =>
      obtain ⟨d, rfl, hread⟩ := hi _ hinner
      obtain ⟨hspends, hnesting⟩ := entries_spend hread path _ [] p (Nat.zero_le d) hes
      rw [size_named, nesting_named, Tree.size, Nat.add_comm]
      exact ⟨hspends.after 1, Nat.succ_le_succ hnesting⟩
  | none _ => exact ⟨.refl, Nat.zero_le _⟩

/-- No anchor stands for more items than there are. -/
def Within (s : Source) : Prop := ∀ anchor, (s.document.targets.getD anchor []).length ≤ s.size

theorem jump_spends (hs : Within s) (hi : BoundedInner s depth inner) {anchor : Nat}
    (h : jump s inner anchor path p = .ok (t, p')) :
    p'.rest = p.rest ∧ Spends s 0 t.size p p' ∧ t.nesting ≤ depth := by
  obtain ⟨hlimit, i, rest, p₁, hrest, ht, rfl⟩ := jump_ok h
  obtain ⟨hspends, hnesting⟩ := content_spends hi ht
  have hitem : Spends s 0 1 ⟨s.document.targets.getD anchor [], p.jumps + 1⟩ ⟨rest, p.jumps + 1⟩ :=
    .item hrest rfl
  have htarget := hitem.trans hspends
  refine ⟨rfl, ⟨Nat.le_refl _, ?_, fun _ => htarget.jumps hlimit⟩, hnesting⟩
  -- what the alias stands for is left behind, and one alias pays for it
  have hnodes := htarget.nodes
  have hlength := hs anchor
  simp only [Nat.mul_add, Nat.mul_one] at hnodes
  change _ + p.rest.length + _ ≤ 0 + p.rest.length + s.size * p₁.jumps
  omega

theorem nodeWith_bounded (hs : Within s) (hi : BoundedInner s depth inner) :
    Bounded s depth (nodeWith s inner) := by
  intro path p t p' h
  obtain ⟨i, rest, hrest, hnode⟩ := nodeWith_ok h
  have hitem : Spends s 0 1 p { p with rest := rest } := .item hrest rfl
  have hshorter : rest.length < p.rest.length := by
    rw [hrest]
    exact Nat.lt_succ_self _
  rcases hnode with ⟨anchor, _, h⟩ | ⟨_, h⟩
  · obtain ⟨hp, hspends, hnesting⟩ := jump_spends hs hi h
    exact ⟨(hitem.mono (Nat.zero_le 1)).trans hspends, hp ▸ hshorter, hnesting⟩
  · obtain ⟨hspends, hnesting⟩ := content_spends hi h
    exact ⟨hitem.trans hspends, Nat.lt_of_le_of_lt hspends.rest hshorter, hnesting⟩

theorem node_bounded (hs : Within s) : (depth : Nat) → Bounded s depth (node s depth)
  | 0 => nodeWith_bounded hs fun _ h => absurd h (by simp)
  | depth + 1 => nodeWith_bounded hs fun _ h => by
      cases h
      exact ⟨depth, rfl, node_bounded hs depth⟩

/-- No anchor of a document stands for more than all of it. -/
theorem within_of {d : Document} {events : List Event} (hd : d.Faithful events)
    (input : ByteArray) : Within ⟨input, d, d.items.length⟩ := by
  intro anchor
  change (d.targets.getD anchor []).length ≤ d.items.length
  rw [Array.getD_eq_getD_getElem?]
  cases hg : d.targets[anchor]? with
  | none => exact Nat.zero_le _
  | some target =>
      obtain ⟨hsuffix, _⟩ := hd.targets target (Array.mem_of_getElem? hg)
      exact hsuffix.length_le

/-- A tree has no more nodes than its items and all aliases that may be followed pay for. -/
theorem root_bounded {d : Document} {events : List Event} {input : ByteArray}
    (hd : d.Faithful events) (h : root ⟨input, d, d.items.length⟩ = .ok t) :
    t.nesting ≤ maxDepth ∧ t.size ≤ d.items.length + 100 * d.items.length * d.items.length := by
  obtain ⟨_, _, p, hn⟩ := root_eq_ok_iff.mp h
  obtain ⟨hspends, _, hnesting⟩ := node_bounded (within_of hd input) maxDepth _ _ _ _ hn
  refine ⟨hnesting, ?_⟩
  have hnodes : t.size + p.rest.length + d.items.length * 0 ≤ 0 + d.items.length + d.items.length *
      p.jumps := hspends.nodes
  have hjumps : d.items.length * p.jumps ≤ d.items.length * (100 * d.items.length) :=
    Nat.mul_le_mul_left _ (hspends.jumps (Nat.zero_le _))
  rw [Nat.mul_comm _ (100 * _)] at hjumps
  omega

end Build

/-! ## Merge keys -/

namespace Merge

theorem Brings.nesting {n : Nat} {t : Tree} {ess : List Entries} (hb : Brings t ess)
    (ht : t.nesting ≤ n) {es : Entries} (hm : es ∈ ess) : (Tree.map es).nesting ≤ n := by
  cases hb with
  | map es' => exact List.mem_singleton.mp hm ▸ ht
  | seq hts => exact Tree.nestingItems_le.mp (Nat.le_of_succ_le ht) _ (hts ▸ List.mem_map_of_mem hm)

theorem nesting_mergeEntries {n : Nat} {es es' : Entries} (hn : Tree.nestingEntries es ≤ n)
    (h : mergeEntries es = .ok es') : Tree.nestingEntries es' ≤ n := by
  rw [Tree.nestingEntries_le] at hn ⊢
  intro e he
  rcases mergeEntries_origin h he with he | ⟨value, ess, merged, hvalue, hb, hm, he⟩
  · exact hn e he
  · -- what stands under the key is nested in a collection less
    exact Tree.nestingEntries_le.mp (Nat.le_of_succ_le (hb.nesting (hn _ hvalue).2 hm)) e he

theorem expandTo_nesting (depth : Nat) (t : Tree) {t' : Tree} {n : Nat} (hn : t.nesting ≤ n)
    (h : expandTo depth t = .ok t') : t'.nesting ≤ n := by
  revert n
  refine expandTo_induct (motive := fun _ t t' => ∀ {n}, t.nesting ≤ n → t'.nesting ≤ n) ?leaf ?map
    ?seq ?tagged depth t h
  case leaf =>
    exact fun _ _ _ {_} hn => hn
  case map =>
    intro depth es merged es' hm hes' n hn
    cases n with
    | zero => exact absurd hn (Nat.not_succ_le_zero _)
    | succ n =>
        have hmerged :=
          Tree.nestingEntries_le.mp (nesting_mergeEntries (Nat.le_of_succ_le_succ hn) hm)
        apply Nat.succ_le_succ
        rw [Tree.nestingEntries_le]
        intro e' he'
        obtain ⟨e, he, hk, hv⟩ := related_of_mem hes' he'
        rw [hk]
        exact ⟨(hmerged e he).1, hv (hmerged e he).2⟩
  case seq =>
    intro depth ts ts' hts' n hn
    cases n with
    | zero => exact absurd hn (Nat.not_succ_le_zero _)
    | succ n =>
        have hts := Tree.nestingItems_le.mp (Nat.le_of_succ_le_succ hn)
        apply Nat.succ_le_succ
        rw [Tree.nestingItems_le]
        intro t' hm'
        obtain ⟨t, hm, ht⟩ := related_of_mem hts' hm'
        exact ht (hts t hm)
  case tagged =>
    exact fun _ _ _ _ ht {_} hn => ht hn

end Merge

/-! ## Texts -/

theorem bounded_of_read {text : String} {t : Tree} (h : read text = .ok t) : t.nesting ≤ maxDepth ∧
    t.size ≤ (Document.ofText text.toList).items.length +
      100 * (Document.ofText text.toList).items.length *
      (Document.ofText text.toList).items.length :=
  Build.root_bounded (Document.ofEvents_faithful (.ofText text.toList)) h

theorem nesting_of_readDocument {text : String} {document : Tree}
    (h : readDocument text = .ok document) : document.nesting ≤ maxDepth := by
  obtain ⟨t, ht, he⟩ := readDocument_eq_ok.mp h
  exact Merge.expandTo_nesting _ t (bounded_of_read ht).1 he

/-- The items of a document are its events, if it has any. -/
theorem items_length_of_read {text : String} {t : Tree} (h : read text = .ok t)
    (hevents : Event.inner (Events.ofTokens (.ofText text.toList)).list ≠ []) :
    (Document.ofText text.toList).items.length =
    (Event.inner (Events.ofTokens (.ofText text.toList)).list).length := by
  obtain ⟨_, haccounts⟩ := collected_of_read h
  cases haccounts with
  | nothing _ hi => exact absurd hi hevents
  | document _ hi _ => exact hi.length_eq.symm

end BootConfig.Yaml
