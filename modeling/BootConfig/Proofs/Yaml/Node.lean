import BootConfig.Proofs.Steps
import BootConfig.Proofs.Yaml.Items
import BootConfig.Yaml.Node

/-!
# Steps of the reader

What each reader of nodes does when it succeeds, in terms of the items that are left.
-/

namespace BootConfig.Yaml.Build

open Steps

variable {s : Source} {p p' : Progress} {i : Item} {t : Tree} {path : Path}

/-! ## Items -/

theorem peek_ok (h : peek s p = .ok (i, p')) : p' = p ∧ ∃ rest, p.rest = i :: rest := by
  unfold peek at h
  rw [get_bind] at h
  cases hr : p.rest with
  | nil => simp only [hr] at h; cases h
  | cons i' rest => simp only [hr] at h; cases h; exact ⟨rfl, rest, rfl⟩

theorem next_ok (h : next s p = .ok (i, p')) : p.rest = i :: p'.rest ∧ p'.jumps = p.jumps := by
  obtain ⟨i', p₁, hp, hrest⟩ := ok_of_bind h
  obtain ⟨rfl, rest, hr⟩ := peek_ok hp
  obtain ⟨_, p₂, hs, hpure⟩ := ok_of_bind hrest
  cases hs
  cases hpure
  exact ⟨by simp only [hr, List.tail_cons], rfl⟩

/-! ## Collections -/

section Collections

variable {read : Reader} {fuel : Nat}

/-- The elements end, or one of them is read and they go on. -/
theorem elements_step {index : Nat} {acc ts : List Tree}
    (h : elements s read path (fuel + 1) index acc p = .ok (ts, p')) :
    ∃ i rest, p.rest = i :: rest ∧
      ((i.kind = .sequenceEnd ∨ i.kind = .void) ∧ ts = acc.reverse ∧ p' = { p with rest := rest } ∨
        i.kind ≠ .sequenceEnd ∧ ∃ t p₁, read (path.element index) p = .ok (t, p₁) ∧
          elements s read path fuel (index + 1) (t :: acc) p₁ = .ok (ts, p')) := by
  obtain ⟨i, p₁, hpeek, h⟩ := ok_of_bind h
  obtain ⟨hp, rest, hrest⟩ := peek_ok hpeek
  rw [hp] at h
  refine ⟨i, rest, hrest, ?_⟩
  cases hk : i.kind with
  | sequenceEnd | void =>
      simp only [hk] at h
      obtain ⟨_, _, hskip, h⟩ := ok_of_bind h
      cases hskip
      cases h
      exact Or.inl ⟨by simp, rfl, by simp only [hrest, List.tail_cons]⟩
  | _ =>
      simp only [hk] at h
      obtain ⟨t, p₂, ht, h⟩ := ok_of_bind h
      exact Or.inr ⟨by simp, t, p₂, ht, h⟩

/-- The entries end, or a key and a value are read and they go on. -/
theorem entries_step {acc es : Entries} (h : entries s read path (fuel + 1) acc p = .ok (es, p')) :
    ∃ i rest, p.rest = i :: rest ∧
      ((i.kind = .mappingEnd ∨ i.kind = .void) ∧ es = acc ∧ p' = { p with rest := rest } ∨
        i.kind ≠ .mappingEnd ∧
        ∃ key p₁ value p₂, read path p = .ok (key, p₁) ∧
        read (valuePath path i.kind) p₁ = .ok (value, p₂) ∧
          entries s read path fuel (acc.put key value) p₂ = .ok (es, p')) := by
  obtain ⟨i, p₁, hpeek, h⟩ := ok_of_bind h
  obtain ⟨hp, rest, hrest⟩ := peek_ok hpeek
  rw [hp] at h
  refine ⟨i, rest, hrest, ?_⟩
  cases hk : i.kind with
  | mappingEnd | void =>
      simp only [hk] at h
      obtain ⟨_, _, hskip, h⟩ := ok_of_bind h
      cases hskip
      cases h
      exact Or.inl ⟨by simp, rfl, by simp only [hrest, List.tail_cons]⟩
  | _ =>
      simp only [hk] at h
      obtain ⟨key, p₂, hkey, h⟩ := ok_of_bind h
      obtain ⟨value, p₃, hvalue, h⟩ := ok_of_bind h
      exact Or.inr ⟨by simp, key, p₂, value, p₃, hkey, hvalue, h⟩

end Collections

/-! ## Nodes -/

variable {inner : Option Reader}

/-- What is read behind the first item of a node. -/
inductive ContentStep (s : Source) (inner : Option Reader) (i : Item) (path : Path) (p : Progress) :
    Tree → Progress → Prop where
  | scalar {c : Scalar} {v : Tree} (hk : i.kind = .scalar c)
      (hv : Resolve.scalar s.input c = .ok v) : ContentStep s inner i path p (named c.tag v) p
  | sequence {tag : Option TagText} {read : Reader} {ts : List Tree} {p' : Progress}
      (hk : i.kind = .sequenceStart tag)
      (hi : inner = some read) (hts : elements s read path s.size 0 [] p = .ok (ts, p')) :
      ContentStep s inner i path p (named tag (.seq ts)) p'
  | mapping {tag : Option TagText} {read : Reader} {es : Entries} {p' : Progress}
      (hk : i.kind = .mappingStart tag)
      (hi : inner = some read) (hes : entries s read path s.size [] p = .ok (es, p')) :
      ContentStep s inner i path p (named tag (.map es)) p'
  | none (hk : i.kind.isAnchored = false) : ContentStep s inner i path p .null p

theorem content_step (h : content s inner i path p = .ok (t, p')) :
    ContentStep s inner i path p t p' := by
  unfold content at h
  cases hk : i.kind with
  | scalar c =>
      simp only [hk] at h
      cases hc : Resolve.scalar s.input c with
      | error form => simp only [hc] at h; cases h
      | ok v => simp only [hc] at h; cases h; exact .scalar hk hc
  | sequenceStart tag =>
      simp only [hk] at h
      cases inner with
      | none => cases h
      | some read =>
          obtain ⟨ts, p₁, hts, h⟩ := ok_of_bind h
          cases h
          exact .sequence hk rfl hts
  | mappingStart tag =>
      simp only [hk] at h
      cases inner with
      | none => cases h
      | some read =>
          obtain ⟨es, p₁, hes, h⟩ := ok_of_bind h
          cases h
          exact .mapping hk rfl hes
  | _ =>
      simp only [hk] at h
      cases h
      exact .none (by rw [hk]; rfl)

/-- What an anchor stands for is read, and then the items go on behind the alias. -/
theorem jump_ok {anchor : Nat} (h : jump s inner anchor path p = .ok (t, p')) :
    p.jumps + 1 ≤ s.maxJumps ∧ ∃ i rest p₁, s.document.targets.getD anchor [] = i :: rest ∧
      content s inner i path.aliased ⟨rest, p.jumps + 1⟩ = .ok (t, p₁) ∧
      p' = { p₁ with rest := p.rest } := by
  unfold jump at h
  rw [get_bind] at h
  split at h
  · cases h
  · rename_i hlimit
    refine ⟨Nat.not_lt.mp hlimit, ?_⟩
    simp only [set_bind] at h
    obtain ⟨i, ⟨rest, jumps⟩, hnext, h⟩ := ok_of_bind h
    obtain ⟨hrest, hjumps⟩ := next_ok hnext
    obtain ⟨t', p₂, ht, h⟩ := ok_of_bind h
    rw [modify_bind] at h
    cases h
    cases hjumps
    exact ⟨i, rest, p₂, hrest, ht, rfl⟩

/-- An alias is followed, any other node is read as it stands. -/
theorem nodeWith_ok (h : nodeWith s inner path p = .ok (t, p')) : ∃ i rest, p.rest = i :: rest ∧
    ((∃ anchor, i.kind = .aliasOf anchor ∧
      jump s inner anchor path { p with rest := rest } = .ok (t, p')) ∨
      (∀ anchor, i.kind ≠ .aliasOf anchor) ∧
        content s inner i path { p with rest := rest } = .ok (t, p')) := by
  obtain ⟨i, ⟨rest, jumps⟩, hnext, h⟩ := ok_of_bind h
  obtain ⟨hrest, hjumps⟩ := next_ok hnext
  cases hjumps
  refine ⟨i, rest, hrest, ?_⟩
  cases hk : i.kind with
  | aliasOf anchor =>
      simp only [hk] at h
      exact Or.inl ⟨anchor, rfl, h⟩
  | _ =>
      simp only [hk] at h
      exact Or.inr ⟨nofun, h⟩

/-- What is read is the node of a document that is there as a whole. -/
theorem root_eq_ok_iff : root s = .ok t ↔ s.document.broken = none ∧ s.document.continued = false ∧
    ∃ p, node s maxDepth .root ⟨s.document.items, 0⟩ = .ok (t, p) := by
  unfold root
  rw [then_eq_ok_iff]
  cases hb : s.document.broken with
  | some b =>
      refine ⟨fun ⟨_, _, h⟩ => ?_, fun h => ?_⟩
      · cases h
      · cases h.1
  | none =>
      cases hc : s.document.continued with
      | true =>
          refine ⟨fun ⟨_, _, h⟩ => ?_, fun h => ?_⟩
          · cases h
          · cases h.2.1
      | false =>
          constructor
          · rintro ⟨⟨_, p⟩, hn, h⟩
            cases h
            exact ⟨rfl, rfl, p, hn⟩
          · rintro ⟨_, _, p, hn⟩
            exact ⟨(t, p), hn, rfl⟩

end BootConfig.Yaml.Build
