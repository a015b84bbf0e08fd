import BootConfig.Proofs.Yaml.Bounded
import BootConfig.Yaml.Rounds

/-!
# Reading ends

With enough rounds, reading comes to an end, and that end is the tree or the fault that is read. A
node leaves at least its first item behind, the nodes of a collection have less depth left, and what
an alias stands for is no alias.
-/

namespace BootConfig.Yaml

open Steps

namespace Rounds

open Build (Bounded Within next peek skip named valuePath)

variable {s : Source} {α β : Type} {p : Progress}

/-! ## Attempts that end -/

/-- An attempt ends as a reader does. -/
def Ends (x : Attempt α) (y : Build α) (p : Progress) : Prop := x p = some (y p)

theorem ends_ofBuild {y : Build α} : Ends (.ofBuild y) y p := rfl

theorem ends_pure {a : α} : Ends (pure a) (pure a) p := rfl

theorem ends_throw (f : Fault) : Ends (throw f : Attempt α) (throw f) p := rfl

theorem ends_get : Ends get get p := rfl

theorem ends_set (p' : Progress) : Ends (set p') (set p') p := rfl

theorem ends_modify (f : Progress → Progress) : Ends (modify f) (modify f) p := rfl

theorem Ends.bind {x : Attempt α} {y : Build α} {f : α → Attempt β} {g : α → Build β}
    (h : Ends x y p) (hf : ∀ a p', y p = .ok (a, p') → Ends (f a) (g a) p') :
    Ends (x >>= f) (y >>= g) p := by
  unfold Ends at h ⊢
  change ExceptT.bind (x p) (fun r => f r.1 r.2) = _
  unfold ExceptT.bind ExceptT.mk
  rw [h, bind_apply]
  cases hy : y p with
  | error e => rfl
  | ok r => exact hf r.1 r.2 hy

/-! ## Collections -/

/-- Attempts at the nodes of a source end. -/
def EndsWithin (s : Source) (attempt : Path → Attempt Tree) (read : Build.Reader) : Prop :=
  ∀ path p, p.rest.length ≤ s.size → Ends (attempt path) (read path) p

variable {attempt : Path → Attempt Tree} {read : Build.Reader} {depth : Nat}

/-- One round for each element that is left and one for the end are enough. -/
theorem elements_ends (hends : EndsWithin s attempt read) (hread : Bounded s depth read)
    (path : Path) :
    (rounds fuel index : Nat) → (acc : List Tree) → (p : Progress) → p.rest.length < rounds →
    p.rest.length < fuel → p.rest.length ≤ s.size →
    Ends (elements s attempt path rounds index acc) (Build.elements s read path fuel index acc) p
  | 0, _, _, _, _, hr, _, _ => absurd hr (Nat.not_lt_zero _)
  | _, 0, _, _, _, _, hf, _ => absurd hf (Nat.not_lt_zero _)
  | rounds + 1, fuel + 1, index, acc, p, hr, hf, hp => by
      unfold elements Build.elements
      apply Ends.bind ends_ofBuild
      intro i p₁ hpeek
      obtain ⟨rfl, _⟩ := Build.peek_ok hpeek
      have hmore : Ends
          (attempt (path.element index) >>= fun t =>
            elements s attempt path rounds (index + 1) (t :: acc))
          (read (path.element index) >>= fun t =>
            Build.elements s read path fuel (index + 1) (t :: acc)) p₁ := by
        apply Ends.bind (hends _ _ hp)
        intro t p₂ ht
        have hshorter := (hread _ _ _ _ ht).shorter
        exact elements_ends hends hread path rounds fuel _ _ p₂ (by omega) (by omega) (by omega)
      cases hk : i.kind with
      | sequenceEnd | void =>
          apply Ends.bind ends_ofBuild
          intros
          exact ends_pure
      | _ => exact hmore

theorem entries_ends (hends : EndsWithin s attempt read) (hread : Bounded s depth read)
    (path : Path) :
    (rounds fuel : Nat) → (acc : Entries) → (p : Progress) → p.rest.length < rounds →
    p.rest.length < fuel → p.rest.length ≤ s.size →
    Ends (entries s attempt path rounds acc) (Build.entries s read path fuel acc) p
  | 0, _, _, _, hr, _, _ => absurd hr (Nat.not_lt_zero _)
  | _, 0, _, _, _, hf, _ => absurd hf (Nat.not_lt_zero _)
  | rounds + 1, fuel + 1, acc, p, hr, hf, hp => by
      unfold entries Build.entries
      apply Ends.bind ends_ofBuild
      intro i p₁ hpeek
      obtain ⟨rfl, _⟩ := Build.peek_ok hpeek
      have hmore : Ends (do
            let key ← attempt path
            let value ← attempt (valuePath path i.kind)
            entries s attempt path rounds (acc.put key value))
          (do
            let key ← read path
            let value ← read (valuePath path i.kind)
            Build.entries s read path fuel (acc.put key value)) p₁ := by
        apply Ends.bind (hends _ _ hp)
        intro key p₂ hkey
        have hshorter := (hread _ _ _ _ hkey).shorter
        apply Ends.bind (hends _ _ (by omega))
        intro value p₃ hvalue
        have hshorter' := (hread _ _ _ _ hvalue).shorter
        exact entries_ends hends hread path rounds fuel _ p₃ (by omega) (by omega) (by omega)
      cases hk : i.kind with
      | mappingEnd | void =>
          apply Ends.bind ends_ofBuild
          intros
          exact ends_pure
      | _ =>
          rw [hk] at hmore
          exact hmore

/-! ## Nodes -/

/-- Attempts at the nodes inside collections end, if these may have any. -/
inductive EndsInside (s : Source) : Option (Path → Attempt Tree) → Option Build.Reader → Prop where
  | none : EndsInside s none none
  | some {attempt : Path → Attempt Tree} {read : Build.Reader} (depth : Nat)
      (hends : EndsWithin s attempt read)
      (hread : Bounded s depth read) : EndsInside s (some attempt) (some read)

variable {rounds : Nat} {tried : Option (Path → Attempt Tree)} {inner : Option Build.Reader}

theorem content_ends (hends : EndsInside s tried inner) (hr : s.size ≤ rounds) (i : Item)
    (path : Path) (hp : p.rest.length < s.size) :
    Ends (content s rounds tried i path) (Build.content s inner i path) p := by
  unfold content Build.content
  cases hk : i.kind with
  | sequenceStart tag =>
      cases hends with
      | none => exact ends_ofBuild
      | some depth hends hread =>
          apply Ends.bind
            (elements_ends hends hread path _ _ _ _ p (Nat.lt_of_lt_of_le hp hr) hp
              (Nat.le_of_lt hp))
          intros
          exact ends_pure
  | mappingStart tag =>
      cases hends with
      | none => exact ends_ofBuild
      | some depth hends hread =>
          apply Ends.bind
            (entries_ends hends hread path _ _ _ p (Nat.lt_of_lt_of_le hp hr) hp (Nat.le_of_lt hp))
          intros
          exact ends_pure
  | _ => cases hends <;> exact ends_ofBuild

theorem nodeWith_ends (hs : Within s) (hends : EndsInside s tried inner) (hr : s.size ≤ rounds) :
    EndsWithin s (nodeWith s rounds tried) (Build.nodeWith s inner) := by
  intro path p hp
  unfold nodeWith Build.nodeWith
  apply Ends.bind ends_ofBuild
  intro i p₁ hnext
  have hlength : p₁.rest.length < s.size := by
    rw [(Build.next_ok hnext).1] at hp
    exact hp
  cases i.kind with
  | aliasOf anchor =>
      change Ends _ (Build.jump s inner anchor path) p₁
      unfold Build.jump
      apply Ends.bind ends_get
      rintro _ _ ⟨⟩
      dsimp only
      split
      · apply Ends.bind (ends_throw _)
        rintro _ _ ⟨⟩
      · apply Ends.bind (ends_set _)
        rintro _ _ ⟨⟩
        apply Ends.bind ends_ofBuild
        intro i' p₂ hnext'
        have htarget : (i' :: p₂.rest).length ≤ s.size := (Build.next_ok hnext').1 ▸ hs anchor
        apply Ends.bind (content_ends hends hr i' _ htarget)
        intro t p₃ _
        apply Ends.bind (ends_modify _)
        intros
        exact ends_pure
  | _ => exact content_ends hends hr i path hlength

/-- Rounds for all items and all depths are enough. -/
theorem node_ends (hs : Within s) : (rounds depth : Nat) → s.size + depth < rounds →
    EndsWithin s (node s rounds depth) (Build.node s depth)
  | 0, _, hr => absurd hr (Nat.not_lt_zero _)
  | rounds + 1, 0, hr => nodeWith_ends hs .none (Nat.le_of_lt_succ hr)
  | rounds + 1, depth + 1, hr => by
      have hinside := node_ends hs rounds depth (Nat.lt_of_succ_lt_succ hr)
      apply nodeWith_ends hs (.some depth hinside (Build.node_bounded hs depth))
      omega

theorem root_ends {d : Document} {events : List Event} {input : ByteArray} (hd : d.Faithful events)
    (hr : d.items.length + maxDepth < rounds) :
    root ⟨input, d, d.items.length⟩ rounds = some (Build.root ⟨input, d, d.items.length⟩) := by
  have hnode :=
    node_ends (Build.within_of hd input) rounds maxDepth hr .root ⟨d.items, 0⟩ (Nat.le_refl _)
  unfold Ends at hnode
  unfold root Build.root
  change ExceptT.bind (node _ rounds maxDepth .root ⟨d.items, 0⟩) _ = _
  unfold ExceptT.bind ExceptT.mk
  rw [hnode]
  cases Build.node ⟨input, d, d.items.length⟩ maxDepth .root ⟨d.items, 0⟩ with
  | error f => rfl
  | ok r =>
      obtain ⟨t, p⟩ := r
      cases d.broken with
      | some b => rfl
      | none => cases d.continued <;> rfl

end Rounds

/-! ## Texts -/

/-- With enough rounds reading ends with a tree or a fault, for every text. A tree is nested no
deeper than the limit, also when its merge keys are applied, and before that it has no more nodes
than the events of its document and the aliases that may be followed can pay for. -/
theorem read_bounded (text : String) :
    (∃ enough, ∀ rounds ≥ enough, Rounds.read rounds text = some (read text)) ∧
    (∀ t, read text = .ok t → t.nesting ≤ 128 ∧
      ∀ events, 1 ≤ events →
        events = (Event.inner (Events.ofTokens (.ofText text.toList)).list).length →
        t.size ≤ events + 100 * events * events) ∧
    ∀ document, readDocument text = .ok document → document.nesting ≤ 128 := by
  refine ⟨⟨_, fun _ => Rounds.root_ends (Document.ofEvents_faithful (.ofText text.toList))⟩, ?_,
    fun _ => nesting_of_readDocument⟩
  intro t ht
  obtain ⟨hnesting, hsize⟩ := bounded_of_read ht
  refine ⟨hnesting, ?_⟩
  intro events hle hevents
  have hne : Event.inner (Events.ofTokens (.ofText text.toList)).list ≠ [] :=
    List.length_pos_iff.mp (hevents ▸ hle)
  rw [items_length_of_read ht hne, ← hevents] at hsize
  exact hsize

/-- A collection that stands in two places, and one that holds itself. -/
theorem read_bounded_aliased :
    (∃ t, read "a: &x [1, [2]]\nb: *x\n" = .ok t ∧ t.nesting ≤ 128 ∧ t.size ≤ 11 + 100 * 11 * 11) ∧
    ∃ f enough, read "&a [*a]\n" = .error f ∧
      ∀ rounds ≥ enough, Rounds.read rounds "&a [*a]\n" = some (.error f) := by
  obtain ⟨t, h⟩ := exists_ok_of_isSome (x := read "a: &x [1, [2]]\nb: *x\n") (by decide +kernel)
  obtain ⟨hnesting, hsize⟩ := (read_bounded _).2.1 t h
  refine ⟨⟨t, h, hnesting, hsize 11 (by decide) (by decide +kernel)⟩, ?_⟩
  have hnone : (read "&a [*a]\n").toOption.isNone = true := by decide +kernel
  obtain ⟨enough, hends⟩ := (read_bounded "&a [*a]\n").1
  cases hr : read "&a [*a]\n" with
  | error f => exact ⟨f, enough, rfl, hr ▸ hends⟩
  | ok t =>
      rw [hr] at hnone
      cases hnone

end BootConfig.Yaml
