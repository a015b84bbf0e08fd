import BootConfig.Config.Walk
import BootConfig.Proofs.Config.Exact

/-!
# Where embedding stops

Embedding fails just where a node that it looks at is of another kind than required. It names the
first of these nodes, and leaves the document with the entries in front of it rewritten and in
nothing else changed.
-/

namespace BootConfig

/-! ## Visits -/

namespace Visit

variable {p : Place} {t : Tree} {vs vs' : List Visit}

theorem misfit?_append : misfit? (vs ++ vs') = (misfit? vs).or (misfit? vs') := List.find?_append

theorem misfit?_of_fit (h : t.kind = p.required) : misfit? (p.visit (some t)) = none := by
  simp [misfit?, Place.visit, fits, h]

theorem misfit?_of_unfit (h : t.kind ≠ p.required) : misfit? (p.visit (some t)) = some ⟨p, t⟩ := by
  simp [misfit?, Place.visit, fits, h]

end Visit

namespace Tree

/-- The nodes from `storage.files` on. -/
def visitsFiles (files : Tree) : List Visit :=
  Place.files.visit (some files) ++ match files with
    | seq items => entriesVisits 0 items
    | _ => []

/-- The nodes from `storage` on. -/
def visitsStorage (storage : Tree) : List Visit :=
  Place.storage.visit (some storage) ++ (storage.get? "files").elim [] visitsFiles

theorem passed_of_mem {index : Nat} {entry : Tree} {v : Visit} (h : v ∈ entry.entryVisits index) :
    v.place.passed = index := by
  simp only [entryVisits, Place.visit, List.mem_append, Option.mem_toList,
    Option.map_eq_some_iff] at h
  obtain ((⟨_, _, rfl⟩ | ⟨_, _, rfl⟩) | ⟨_, _, rfl⟩) := h <;> rfl

theorem entriesVisits_cons (index : Nat) (entry : Tree) (entries : List Tree) :
    entriesVisits index (entry :: entries) = entryVisits index entry ++ entriesVisits
    (index + 1) entries := by
  rw [entriesVisits, List.zipIdx_cons, List.flatMap_cons]
  rfl

theorem visits_eq (document : Tree) :
    document.visits = Place.root.visit (some document) ++ (document.get? "storage").elim
    [] visitsStorage := by
  unfold visits files
  cases document.get? "storage" with
  | none => rfl
  | some storage =>
      simp only [Option.bind_some, Option.elim_some, visitsStorage]
      cases storage.get? "files" with
      | none => rfl
      | some files => cases files <;> simp [visitsFiles, entriesVisits]

end Tree

namespace Contents

/-! ## File entries -/

theorem path_entry (index : Nat) : (Place.entry index).path = entryPath index := by
  have hfront : filesPath ++ "[" = "storage.files[" := by decide
  rw [entryPath, hfront]
  rfl

theorem path_contents (index : Nat) : (Place.contents index).path = contentsPath index := by
  have hback : "]" ++ ".contents" = "].contents" := by decide
  change "storage.files[" ++ Digits.decimal index ++ "].contents" = _
  rw [contentsPath, ← path_entry, ← hback, ← String.append_assoc]
  rfl

theorem path_inline (index : Nat) : (Place.inline index).path = inlinePath index := by
  have hback : "].contents" ++ ".inline" = "].contents.inline" := by decide
  change "storage.files[" ++ Digits.decimal index ++ "].contents.inline" = _
  rw [inlinePath, ← path_contents, ← hback, ← String.append_assoc]
  rfl

section Reports

variable {α β : Type} {x : Except ShapeFault α} {f : α → Except ShapeFault β} {vs vs' : List Visit}

/-- What fails with the fault of the first misfit, and without one not at all. -/
def Reports (x : Except ShapeFault α) (vs : List Visit) : Prop :=
  match Visit.misfit? vs with
  | none => ∃ a, x = .ok a
  | some v => x = .error v.fault

theorem Reports.bind (hx : Reports x vs) (hf : ∀ a, x = .ok a → Reports (f a) vs') :
    Reports (x >>= f) (vs ++ vs') := by
  unfold Reports at hx ⊢
  rw [Visit.misfit?_append]
  cases hv : Visit.misfit? vs with
  | none =>
      rw [hv] at hx
      obtain ⟨a, rfl⟩ := hx
      exact hf a rfl
  | some v =>
      rw [hv] at hx
      rw [hx]
      rfl

theorem Reports.map (hx : Reports x vs) (g : α → β) : Reports (x >>= fun a => .ok (g a)) vs := by
  rw [← List.append_nil vs]
  exact hx.bind fun a _ => ⟨g a, rfl⟩

theorem mapping_reports {p : Place} (hp : p.required = "mapping") (t : Tree) :
    Reports (mapping p.path t) (p.visit (some t)) := by
  unfold Reports
  cases t with
  | map es =>
      have hk : (Tree.map es).kind = p.required := hp.symm
      rw [Visit.misfit?_of_fit hk]
      exact ⟨es, rfl⟩
  | _ =>
      rw [Visit.misfit?_of_unfit (by simp [hp, Tree.kind])]
      simp only [Visit.fault, hp]
      rfl

theorem embedContents_reports (index : Nat) (contents : Entries) :
    Reports (embedContents index contents)
    ((Place.inline index).visit (contents.find? inlineKey)) := by
  unfold embedContents
  cases hi : contents.find? inlineKey with
  | none => exact ⟨_, rfl⟩
  | some inline =>
      cases inline with
      | str text => exact ⟨_, rfl⟩
      | _ =>
          exact congrArg (fun path => Except.error (ShapeFault.mk path "string" _))
            (path_inline index).symm

theorem embedEntry_reports (index : Nat) (entry : Tree) :
    Reports (embedEntry index entry) (entry.entryVisits index) := by
  unfold embedEntry Tree.entryVisits
  rw [List.append_assoc, ← path_entry]
  refine (mapping_reports (p := .entry index) rfl entry).bind fun fields hf => ?_
  rw [mapping_ok hf, Tree.inline?, Tree.get?]
  cases hc : Entries.find? contentsKey fields with
  | none =>
      rw [contentsKey] at hc
      rw [hc]
      exact ⟨_, rfl⟩
  | some contents =>
      rw [contentsKey] at hc
      rw [hc, ← path_contents]
      refine (mapping_reports (p := .contents index) rfl contents).bind fun contents' hm => ?_
      rw [mapping_ok hm]
      exact (embedContents_reports index contents').map _

end Reports

/-! ## All entries -/

/-- Behind the entries in front of the first misfit nothing is changed. -/
theorem embedFrom_misfit : (items : List Tree) → (index : Nat) →
    (embedFrom index items).fault =
    (Visit.misfit? (Tree.entriesVisits index items)).map Visit.fault ∧
      ∀ v, Visit.misfit? (Tree.entriesVisits index items) = some v →
        ∃ count, v.place.passed = index + count ∧
          (embedFrom index items).value = (items.take count).map Tree.rewriteEntry ++
          items.drop count
  | [], _ => ⟨rfl, fun _ h => by cases h⟩
  | entry :: items, index => by
      obtain ⟨hfault, hvalue⟩ := embedFrom_misfit items (index + 1)
      have hentry := embedEntry_reports index entry
      unfold Reports at hentry
      rw [Tree.entriesVisits_cons, Visit.misfit?_append]
      cases hv : Visit.misfit? (entry.entryVisits index) with
      | none =>
          rw [hv] at hentry
          obtain ⟨⟨change, entry'⟩, he⟩ := hentry
          simp only [embedFrom, he, Option.none_or]
          refine ⟨hfault, fun v h => ?_⟩
          obtain ⟨count, hcount, hitems⟩ := hvalue v h
          refine ⟨count + 1, by omega, ?_⟩
          rw [hitems, (embedEntry_ok he).rewriteEntry, List.take_succ_cons, List.drop_succ_cons]
          rfl
      | some v =>
          rw [hv] at hentry
          simp only [embedFrom, hentry, Option.some_or]
          refine ⟨rfl, fun u hu => ?_⟩
          cases hu
          exact ⟨0, Tree.passed_of_mem (List.mem_of_find?_eq_some hv), rfl⟩

/-! ## Documents -/

section Stops

variable {change : Tree → Outcome Tree} {visits : Tree → List Visit} {rewrite : Nat → Tree → Tree}

/-- A change that stops at the first misfit, with the entries in front of it rewritten. -/
def Stops (change : Tree → Outcome Tree) (visits : Tree → List Visit)
    (rewrite : Nat → Tree → Tree) : Prop :=
  ∀ t, (change t).fault = (Visit.misfit? (visits t)).map Visit.fault ∧
    ∀ v, Visit.misfit? (visits t) = some v → (change t).value = rewrite v.place.passed t

/-- A mapping stops where the value with a name does. -/
theorem Stops.within {outer : Tree → Outcome Tree} {name : String} {p : Place}
    (hp : p.required = "mapping")
    (hmap : ∀ es, outer (.map es) = (within (.str name) change es).map .map)
    (hother : ∀ t, t.kind ≠ "mapping" → outer t = .failed t (.ofTree p.path "mapping" t))
    (h : Stops change visits rewrite) :
    Stops outer (fun t => p.visit (some t) ++ (t.get? name).elim [] visits) fun count =>
      Tree.update name (rewrite count) := by
  intro t
  simp only [Visit.misfit?_append]
  cases t with
  | map es =>
      have hk : (Tree.map es).kind = p.required := hp.symm
      rw [Visit.misfit?_of_fit hk, Option.none_or, hmap, Tree.get?]
      unfold Contents.within
      cases hf : Entries.find? (.str name) es with
      | none => exact ⟨rfl, fun _ h => by cases h⟩
      | some t =>
          obtain ⟨hfault, hvalue⟩ := h t
          refine ⟨hfault, fun v hv => ?_⟩
          rw [Tree.update, Entries.update_of_find? hf, ← hvalue v hv]
          rfl
  | _ =>
      have hk : ∀ {t : Tree}, t.kind ≠ "mapping" → t.kind ≠ p.required := fun h => hp ▸ h
      rw [Visit.misfit?_of_unfit (hk (by simp [Tree.kind])), hother _ (by simp [Tree.kind]),
        Option.some_or]
      refine ⟨?_, fun v hv => ?_⟩
      · simp only [Visit.fault, hp, Option.map_some]
        rfl
      · cases hv
        rfl

theorem embedFiles_stops : Stops embedFiles Tree.visitsFiles Tree.rewriteItems := by
  intro t
  unfold Tree.visitsFiles
  rw [Visit.misfit?_append]
  cases t with
  | seq items =>
      have hk : (Tree.seq items).kind = Place.files.required := rfl
      obtain ⟨hfault, hvalue⟩ := embedFrom_misfit items 0
      rw [Visit.misfit?_of_fit hk, Option.none_or]
      refine ⟨hfault, fun v hv => ?_⟩
      obtain ⟨count, hcount, hitems⟩ := hvalue v hv
      rw [hcount, Nat.zero_add, Tree.rewriteItems, ← hitems]
      rfl
  | _ =>
      refine ⟨rfl, fun v hv => ?_⟩
      cases hv
      rfl

theorem embedStorage_stops :
    Stops embedStorage Tree.visitsStorage fun count =>
      Tree.update "files" (Tree.rewriteItems count) := by
  refine embedFiles_stops.within (p := .storage) rfl (fun _ => rfl) fun t ht => ?_
  cases t with
  | map => exact absurd rfl ht
  | _ => rfl

theorem embed_stops : Stops embed Tree.visits Tree.rewriteFirst := by
  have hroot : Stops embed _ _ :=
    embedStorage_stops.within (p := .root) rfl (fun _ => rfl) fun t ht => by
    cases t with
    | map => exact absurd rfl ht
    | _ => rfl
  intro document
  rw [Tree.visits_eq]
  exact hroot document

end Stops

/-- Embedding fails just where it looks at a node of another kind than required. It names the place
of the first such node, the kind required there and the kind found, and leaves the document with the
entries in front of that place rewritten and all else as it was. -/
theorem embed_misfits (document : Tree) :
    ((embed document).fault.isSome = true ↔ ∃ v ∈ document.visits, v.fits = false) ∧
    ∀ v, Visit.misfit? document.visits = some v →
      (embed document).fault = some ⟨v.place.path, v.place.required, v.node.kind⟩ ∧
      (embed document).value = document.rewriteFirst v.place.passed := by
  obtain ⟨hfault, hvalue⟩ := embed_stops document
  constructor
  · rw [hfault, Option.isSome_map, Visit.misfit?, List.find?_isSome]
    simp
  · intro v hv
    rw [hfault, hv]
    exact ⟨rfl, hvalue v hv⟩

/-- Two entries are rewritten, the third one fails, and the fourth one, which is no mapping, is not
reached. -/
theorem embed_misfits_third_entry :
    ∃ document : Tree,
      (embed document).fault = some ⟨"storage.files[2].contents.inline", "string", "tagged value"⟩ ∧
      (embed document).value = .map [
        (.str "storage", .map [(.str "files", .seq [
          .map [(.str "contents", .map [(.str "source", .str "data:,a")])],
          .map [(.str "path", .str "/b")],
          .map [(.str "contents", .map [(.str "inline", .tagged "t" (.str "c"))])],
          .str "d"])]),
        (.int 1, .map [(.str "inline", .str "a")])] := by
  obtain ⟨hfault, hvalue⟩ := (embed_misfits (.map [
    (.str "storage", .map [(.str "files", .seq [
      .map [(.str "contents", .map [(.str "inline", .str "a")])],
      .map [(.str "path", .str "/b")],
      .map [(.str "contents", .map [(.str "inline", .tagged "t" (.str "c"))])],
      .str "d"])]),
    (.int 1, .map [(.str "inline", .str "a")])])).2 _ rfl
  exact ⟨_, hfault, hvalue⟩

end Contents

end BootConfig
