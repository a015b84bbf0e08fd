import BootConfig.Proofs.Tree.Entries
import BootConfig.Proofs.Yaml.Event.Spelled
import BootConfig.Proofs.Yaml.Scalars
import BootConfig.Proofs.Yaml.Token.Written

/-!
# Reading the items of a tree

The items of a tree are read as the tree, with the entries of each mapping put one after the other.
A tree with more nested collections than may be read is refused.
-/

namespace BootConfig

namespace Tree

mutual

/-- The tree with the entries of each mapping put one after the other. -/
def gather : Tree → Tree
  | .seq items => .seq (gatherItems items)
  | .map entries => .map (Entries.ofList (gatherEntries entries))
  | .tagged name value => .tagged name (gather value)
  | t => t

def gatherItems : List Tree → List Tree
  | [] => []
  | t :: ts => gather t :: gatherItems ts

def gatherEntries : Entries → Entries
  | [] => []
  | (k, v) :: es => (k, gather v) :: gatherEntries es

end

end Tree

/-! ## Trees whose keys are all different -/

namespace Entries

theorem foldl_put : (es acc : Entries) → (∀ e ∈ es, ∃ name, e.1 = .str name) → OneEach (acc ++ es) →
    es.foldl (fun acc e => put e.1 e.2 acc) acc = acc ++ es
  | [], acc, _, _ => (List.append_nil acc).symm
  | (k, v) :: es, acc, hk, h => by
      obtain ⟨name, rfl⟩ := hk (k, v) (by simp)
      have hnew : has (.str name) acc = false := by
        rw [← Bool.not_eq_true, has_str]
        intro hm
        rw [OneEach, names_append, List.nodup_append] at h
        exact h.2.2 name hm name (mem_names.mpr ⟨v, by simp⟩) rfl
      rw [List.foldl_cons, put_of_not_has hnew,
        foldl_put es _ (fun e he => hk e (List.mem_cons_of_mem _ he)) (by simpa using h)]
      simp

theorem ofList_of_oneEach {es : Entries} (hk : ∀ e ∈ es, ∃ name, e.1 = .str name) (h : es.OneEach) :
    ofList es = es :=
  foldl_put es [] hk h

end Entries

namespace Tree

theorem StandardEntries.keys : {es : Entries} → StandardEntries es →
    ∀ e ∈ es, ∃ name, e.1 = .str name
  | [], _, _, h => absurd h List.not_mem_nil
  | (_, _) :: _, h, e, he => by
      rcases List.mem_cons.mp he with rfl | he
      · exact h.1
      · exact StandardEntries.keys h.2.2 e he

mutual

theorem gather_eq : (t : Tree) → t.Standard → t.All (fun _ => True) Entries.OneEach → t.gather = t
  | .null, _, _ | .bool _, _, _ | .int _, _, _ | .float _, _, _ | .str _, _, _ => rfl
  | .seq items, hs, hd => congrArg Tree.seq (gatherItems_eq items hs hd)
  | .map es, hs, hd => by
      rw [gather, gatherEntries_eq es hs hd.2,
        Entries.ofList_of_oneEach (StandardEntries.keys hs) hd.1]
  | .tagged _ _, hs, _ => hs.elim

theorem gatherItems_eq : (ts : List Tree) → StandardItems ts →
    AllItems (fun _ => True) Entries.OneEach ts → gatherItems ts = ts
  | [], _, _ => rfl
  | t :: ts, hs, hd => by rw [gatherItems, gather_eq t hs.1 hd.1, gatherItems_eq ts hs.2 hd.2]

theorem gatherEntries_eq : (es : Entries) → StandardEntries es →
    AllEntries (fun _ => True) Entries.OneEach es → gatherEntries es = es
  | [], _, _ => rfl
  | (k, v) :: es, hs, hd => by
      rw [gatherEntries, gather_eq v hs.2.1 hd.1, gatherEntries_eq es hs.2.2 hd.2]

end

end Tree

namespace Yaml.Build

open Steps

variable {s : Source}

/-! ## Single items -/

/-- The reader of the nodes in a node. -/
def inner (s : Source) : Nat → Option Reader
  | 0 => none
  | depth + 1 => some (node s depth)

theorem node_eq (depth : Nat) : node s depth = nodeWith s (inner s depth) := by
  cases depth <;> rfl

@[simp] theorem peek_cons (i : Item) (rest : List Item) (jumps : Nat) :
    peek s ⟨i :: rest, jumps⟩ = .ok (i, ⟨i :: rest, jumps⟩) := rfl

@[simp] theorem skip_cons (i : Item) (rest : List Item) (jumps : Nat) :
    skip ⟨i :: rest, jumps⟩ = .ok ((), ⟨rest, jumps⟩) := rfl

@[simp] theorem next_cons (i : Item) (rest : List Item) (jumps : Nat) :
    next s ⟨i :: rest, jumps⟩ = .ok (i, ⟨rest, jumps⟩) := rfl

theorem node_cons (depth : Nat) (path : Path) {i : Item} (hi : ∀ anchor, i.kind ≠ .aliasOf anchor)
    (rest : List Item) (jumps : Nat) :
    node s depth path ⟨i :: rest, jumps⟩ = content s (inner s depth) i path ⟨rest, jumps⟩ := by
  rw [node_eq]
  obtain ⟨kind, mark⟩ := i
  cases kind with
  | aliasOf anchor => exact absurd rfl (hi anchor)
  | _ => rfl

theorem node_scalar (depth : Nat) (path : Path) {t : Tree} {style : Style} {text : String}
    {start stop : Nat} (mark : Mark)
    (h : Resolve.scalar s.input ⟨none, style, text, start, stop⟩ = .ok t) (rest : List Item)
    (jumps : Nat) :
    node s depth path ⟨⟨.scalar ⟨none, style, text, start, stop⟩, mark⟩ :: rest, jumps⟩ =
      .ok (t, ⟨rest, jumps⟩) := by
  rw [node_cons depth path (by simp)]
  simp [content, h, named]

/-! ## Trees -/

theorem Shows.begins {input : ByteArray} {t : Tree} {items : List Item} (h : Shows input t items) :
    ∃ i more, items = i :: more ∧ i.kind ≠ .sequenceEnd ∧ i.kind ≠ .mappingEnd ∧
      i.kind ≠ .void := by
  cases h <;> exact ⟨_, _, rfl, by simp, by simp, by simp⟩

theorem ShowsItems.length_le {input : ByteArray} : {ts : List Tree} → {items : List Item} →
    ShowsItems input ts items → ts.length ≤ items.length
  | _, _, .nil => Nat.le_refl _
  | _, _, .cons h hs => by
      obtain ⟨i, more, rfl, _⟩ := Shows.begins h
      have := ShowsItems.length_le hs
      simp only [List.length_cons, List.length_append]
      omega

theorem ShowsEntries.length_le {input : ByteArray} : {es : Entries} → {items : List Item} →
    ShowsEntries input es items → es.length ≤ items.length
  | _, _, .nil => Nat.le_refl _
  | _, _, .cons _ _ _ hs => by
      have := ShowsEntries.length_le hs
      simp only [List.length_cons, List.length_append]
      omega

theorem elements_end {read : Reader} {path : Path} {i : Item} (hi : i.kind = .sequenceEnd)
    (fuel index : Nat) (acc : List Tree) (rest : List Item) (jumps : Nat) :
    elements s read path (fuel + 1) index acc ⟨i :: rest, jumps⟩ =
      .ok (acc.reverse, ⟨rest, jumps⟩) := by
  simp [elements, bind_apply, map_apply, hi]

theorem elements_cons {read : Reader} {path : Path} {i : Item} (hi : i.kind ≠ .sequenceEnd)
    (hv : i.kind ≠ .void)
    {fuel index : Nat} {acc : List Tree} {rest rest' : List Item} {jumps jumps' : Nat} {t : Tree}
    (ht : read (path.element index) ⟨i :: rest, jumps⟩ = .ok (t, ⟨rest', jumps'⟩)) :
    elements s read path (fuel + 1) index acc ⟨i :: rest, jumps⟩ =
      elements s read path fuel (index + 1) (t :: acc) ⟨rest', jumps'⟩ := by
  have hmore :
      (read (path.element index) >>= fun t => elements s read path fuel (index + 1) (t :: acc))
      ⟨i :: rest, jumps⟩ =
      elements s read path fuel (index + 1) (t :: acc) ⟨rest', jumps'⟩ := bind_ok ht
  obtain ⟨kind, mark⟩ := i
  cases kind with
  | sequenceEnd => exact absurd rfl hi
  | void => exact absurd rfl hv
  | _ => exact hmore

theorem entries_end {read : Reader} {path : Path} {i : Item} (hi : i.kind = .mappingEnd)
    (fuel : Nat) (acc : Entries) (rest : List Item) (jumps : Nat) :
    entries s read path (fuel + 1) acc ⟨i :: rest, jumps⟩ = .ok (acc, ⟨rest, jumps⟩) := by
  simp [entries, bind_apply, map_apply, hi]

theorem entries_cons {read : Reader} {path : Path} {c : Scalar} {mark : Mark} {fuel : Nat}
    {acc : Entries} {rest rest' rest'' : List Item} {jumps jumps' jumps'' : Nat} {k v : Tree}
    (hk : read path ⟨⟨.scalar c, mark⟩ :: rest, jumps⟩ = .ok (k, ⟨rest', jumps'⟩))
    (hv : read (path.member c.text) ⟨rest', jumps'⟩ = .ok (v, ⟨rest'', jumps''⟩)) :
    entries s read path (fuel + 1) acc ⟨⟨.scalar c, mark⟩ :: rest, jumps⟩ =
      entries s read path fuel (acc.put k v) ⟨rest'', jumps''⟩ := by
  rw [entries, bind_ok (peek_cons _ _ _)]
  simp only
  rw [bind_ok hk]
  exact bind_ok hv

mutual

theorem node_shown : {t : Tree} → {items : List Item} → Shows s.input t items → (depth : Nat) →
    t.depth ≤ depth → items.length ≤ s.size → ∀ path rest jumps,
    node s depth path ⟨items ++ rest, jumps⟩ = .ok (t.gather, ⟨rest, jumps⟩)
  | _, _, .scalar mark h, depth, _, _, path, rest, jumps => by
      rw [List.singleton_append, node_scalar depth path mark h]
      cases Resolve.scalar_meant h <;> rfl
  | _, _, .seq _ _ _, 0, hd, _, _, _, _ => absurd hd (by simp [Tree.depth])
  | _, _, @Shows.seq _ ts items start stop h, depth + 1, hd, hl, path, rest, jumps => by
      have hlen := ShowsItems.length_le h
      simp only [List.length_cons, List.length_append] at hl
      simp only [Tree.depth] at hd
      have he :=
        elements_shown h depth (by omega) (by omega) s.size (by omega) path 0 [] stop rest jumps
      rw [List.cons_append, node_cons _ _ (by simp), List.append_assoc, List.singleton_append]
      simp only [content, inner, collection]
      rw [bind_ok he]
      rfl
  | _, _, .map _ _ _, 0, hd, _, _, _, _ => absurd hd (by simp [Tree.depth])
  | _, _, @Shows.map _ es items start stop h, depth + 1, hd, hl, path, rest, jumps => by
      have hlen := ShowsEntries.length_le h
      simp only [List.length_cons, List.length_append] at hl
      simp only [Tree.depth] at hd
      have he :=
        entries_shown h depth (by omega) (by omega) s.size (by omega) path [] stop rest jumps
      rw [List.cons_append, node_cons _ _ (by simp), List.append_assoc, List.singleton_append]
      simp only [content, inner, collection]
      rw [bind_ok he]
      rfl

theorem elements_shown : {ts : List Tree} → {items : List Item} → ShowsItems s.input ts items →
    (depth : Nat) → Tree.depthItems ts ≤ depth → items.length ≤ s.size → (fuel : Nat) →
    ts.length < fuel → ∀ path index acc mark rest jumps,
    elements s (node s depth) path fuel index acc ⟨items ++ ⟨.sequenceEnd, mark⟩ :: rest, jumps⟩ =
      .ok (acc.reverse ++ Tree.gatherItems ts, ⟨rest, jumps⟩)
  | _, _, _, _, _, _, 0, hf, _, _, _, _, _, _ => absurd hf (Nat.not_lt_zero _)
  | _, _, .nil, _, _, _, fuel + 1, _, _, _, _, _, _, _ => by
      rw [List.nil_append, elements_end rfl, Tree.gatherItems, List.append_nil]
  | _, _, @ShowsItems.cons _ t _ items items' h hs, depth, hd, hl, fuel + 1, hf, path, index, acc,
      mark, rest, jumps => by
      simp only [Tree.depthItems, List.length_append, List.length_cons] at hd hl hf
      have ht :=
        node_shown h depth (by omega)
          (by omega) (path.element index) (items' ++ ⟨.sequenceEnd, mark⟩ :: rest) jumps
      have he :=
        elements_shown hs depth (by omega) (by omega) fuel
          (by omega) path (index + 1) (t.gather :: acc) mark rest jumps
      obtain ⟨i, more, rfl, hi, _, hv⟩ := Shows.begins h
      rw [List.cons_append] at ht
      rw [List.append_assoc, List.cons_append, elements_cons hi hv ht, he]
      simp [Tree.gatherItems]

theorem entries_shown : {es : Entries} → {items : List Item} → ShowsEntries s.input es items →
    (depth : Nat) → Tree.depthEntries es ≤ depth → items.length ≤ s.size → (fuel : Nat) →
    es.length < fuel → ∀ path acc mark rest jumps,
    entries s (node s depth) path fuel acc ⟨items ++ ⟨.mappingEnd, mark⟩ :: rest, jumps⟩ =
      .ok ((Tree.gatherEntries es).foldl (fun acc e => acc.put e.1 e.2) acc, ⟨rest, jumps⟩)
  | _, _, _, _, _, _, 0, hf, _, _, _, _, _ => absurd hf (Nat.not_lt_zero _)
  | _, _, .nil, _, _, _, fuel + 1, _, _, _, _, _, _ => by
      rw [List.nil_append, entries_end rfl]
      rfl
  | _, _, @ShowsEntries.cons _ name _ text _ _ v _ items items' kmark hk hv hs, depth, hd, hl,
      fuel + 1, hf, path, acc, mark, rest, jumps => by
      simp only [Tree.depthEntries, List.length_append, List.length_cons] at hd hl hf
      have hkey :=
        node_scalar depth path kmark hk (items ++ (items' ++ ⟨.mappingEnd, mark⟩ :: rest)) jumps
      have hvalue :=
        node_shown hv depth (by omega)
          (by omega) (path.member text) (items' ++ ⟨.mappingEnd, mark⟩ :: rest) jumps
      have he :=
        entries_shown hs depth (by omega) (by omega) fuel
          (by omega) path (acc.put (.str name) v.gather) mark rest jumps
      rw [List.cons_append, List.append_assoc, entries_cons hkey hvalue, he]
      rfl

end

/-! ## Trees that are too deep -/

theorem elements_error {read : Reader} {path : Path} {i : Item} (hi : i.kind ≠ .sequenceEnd)
    (hv : i.kind ≠ .void)
    {fuel index : Nat} {acc : List Tree} {rest : List Item} {jumps : Nat} {f : Fault}
    (ht : read (path.element index) ⟨i :: rest, jumps⟩ = .error f) :
    elements s read path (fuel + 1) index acc ⟨i :: rest, jumps⟩ = .error f := by
  have hmore :
      (read (path.element index) >>= fun t => elements s read path fuel (index + 1) (t :: acc))
      ⟨i :: rest, jumps⟩ = .error f := bind_error ht
  obtain ⟨kind, mark⟩ := i
  cases kind with
  | sequenceEnd => exact absurd rfl hi
  | void => exact absurd rfl hv
  | _ => exact hmore

theorem entries_error {read : Reader} {path : Path} {c : Scalar} {mark : Mark} {fuel : Nat}
    {acc : Entries} {rest rest' : List Item} {jumps jumps' : Nat} {k : Tree} {f : Fault}
    (hk : read path ⟨⟨.scalar c, mark⟩ :: rest, jumps⟩ = .ok (k, ⟨rest', jumps'⟩))
    (hv : read (path.member c.text) ⟨rest', jumps'⟩ = .error f) :
    entries s read path (fuel + 1) acc ⟨⟨.scalar c, mark⟩ :: rest, jumps⟩ = .error f := by
  rw [entries, bind_ok (peek_cons _ _ _)]
  simp only
  rw [bind_ok hk]
  exact bind_error hv

mutual

theorem node_deep : {t : Tree} → {items : List Item} → Shows s.input t items → (depth : Nat) →
    depth < t.depth → items.length ≤ s.size →
    ∀ path rest jumps, ∃ f, node s depth path ⟨items ++ rest, jumps⟩ = .error f
  | _, _, .scalar mark h, depth, hd, _, _, _, _ => by
      cases Resolve.scalar_meant h <;> exact absurd hd (Nat.not_lt_zero _)
  | _, _, .seq _ _ _, 0, _, _, _, _, _ => ⟨_, rfl⟩
  | _, _, @Shows.seq _ ts items start stop h, depth + 1, hd, hl, path, rest, jumps => by
      have hlen := ShowsItems.length_le h
      simp only [List.length_cons, List.length_append] at hl
      simp only [Tree.depth] at hd
      obtain ⟨f, he⟩ :=
        elements_deep h depth (by omega) (by omega) s.size (by omega) path 0 [] stop rest jumps
      refine ⟨f, ?_⟩
      rw [List.cons_append, node_cons _ _ (by simp), List.append_assoc, List.singleton_append]
      simp only [content, inner, collection]
      exact bind_error he
  | _, _, .map _ _ _, 0, _, _, _, _, _ => ⟨_, rfl⟩
  | _, _, @Shows.map _ es items start stop h, depth + 1, hd, hl, path, rest, jumps => by
      have hlen := ShowsEntries.length_le h
      simp only [List.length_cons, List.length_append] at hl
      simp only [Tree.depth] at hd
      obtain ⟨f, he⟩ :=
        entries_deep h depth (by omega) (by omega) s.size (by omega) path [] stop rest jumps
      refine ⟨f, ?_⟩
      rw [List.cons_append, node_cons _ _ (by simp), List.append_assoc, List.singleton_append]
      simp only [content, inner, collection]
      exact bind_error he

theorem elements_deep : {ts : List Tree} → {items : List Item} → ShowsItems s.input ts items →
    (depth : Nat) → depth < Tree.depthItems ts → items.length ≤ s.size → (fuel : Nat) →
    ts.length < fuel → ∀ path index acc mark rest jumps,
    ∃ f, elements s (node s depth) path fuel index acc
      ⟨items ++ ⟨.sequenceEnd, mark⟩ :: rest, jumps⟩ = .error f
  | _, _, _, _, _, _, 0, hf, _, _, _, _, _, _ => absurd hf (Nat.not_lt_zero _)
  | _, _, .nil, _, hd, _, _, _, _, _, _, _, _, _ => absurd hd (Nat.not_lt_zero _)
  | _, _, @ShowsItems.cons _ t ts items items' h hs, depth, hd, hl, fuel + 1, hf, path, index, acc,
      mark, rest, jumps => by
      simp only [Tree.depthItems, List.length_append, List.length_cons] at hd hl hf
      obtain ⟨i, more, hitems, hi, _, hv⟩ := Shows.begins h
      by_cases ht : t.depth ≤ depth
      · have hn := node_shown h depth ht (by omega) (path.element index)
          (items' ++ ⟨.sequenceEnd, mark⟩ :: rest) jumps
        obtain ⟨f, he⟩ :=
          elements_deep hs depth (by omega) (by omega) fuel
            (by omega) path (index + 1) (t.gather :: acc) mark rest jumps
        subst hitems
        rw [List.cons_append] at hn
        exact ⟨f, by rw [List.append_assoc, List.cons_append, elements_cons hi hv hn, he]⟩
      · obtain ⟨f, hn⟩ :=
          node_deep h depth (by omega)
            (by omega) (path.element index) (items' ++ ⟨.sequenceEnd, mark⟩ :: rest) jumps
        subst hitems
        rw [List.cons_append] at hn
        exact ⟨f, by rw [List.append_assoc, List.cons_append, elements_error hi hv hn]⟩

theorem entries_deep : {es : Entries} → {items : List Item} → ShowsEntries s.input es items →
    (depth : Nat) → depth < Tree.depthEntries es → items.length ≤ s.size → (fuel : Nat) →
    es.length < fuel → ∀ path acc mark rest jumps,
    ∃ f, entries s (node s depth) path fuel acc
      ⟨items ++ ⟨.mappingEnd, mark⟩ :: rest, jumps⟩ = .error f
  | _, _, _, _, _, _, 0, hf, _, _, _, _, _ => absurd hf (Nat.not_lt_zero _)
  | _, _, .nil, _, hd, _, _, _, _, _, _, _, _ => absurd hd (Nat.not_lt_zero _)
  | _, _, @ShowsEntries.cons _ name _ text _ _ v es items items' kmark hk hv hs, depth, hd, hl,
      fuel + 1, hf, path, acc, mark, rest, jumps => by
      simp only [Tree.depthEntries, List.length_append, List.length_cons] at hd hl hf
      have hkey :=
        node_scalar depth path kmark hk (items ++ (items' ++ ⟨.mappingEnd, mark⟩ :: rest)) jumps
      by_cases hvd : v.depth ≤ depth
      · have hvalue := node_shown hv depth hvd (by omega) (path.member text)
          (items' ++ ⟨.mappingEnd, mark⟩ :: rest) jumps
        obtain ⟨f, he⟩ :=
          entries_deep hs depth (by omega) (by omega) fuel
            (by omega) path (acc.put (.str name) v.gather) mark rest jumps
        exact ⟨f, by rw [List.cons_append, List.append_assoc, entries_cons hkey hvalue, he]⟩
      · obtain ⟨f, hvalue⟩ :=
          node_deep hv depth (by omega)
            (by omega) (path.member text) (items' ++ ⟨.mappingEnd, mark⟩ :: rest) jumps
        exact ⟨f, by rw [List.cons_append, List.append_assoc, entries_error hkey hvalue]⟩

end

/-! ## Documents -/

theorem root_shown {t : Tree} {input : ByteArray} {items : List Item} (h : Shows input t items)
    (hd : t.depth ≤ maxDepth) :
    root ⟨input, ⟨items, #[], none, false⟩, items.length⟩ = .ok t.gather := by
  have hn :=
    node_shown (s := ⟨input, ⟨items, #[], none, false⟩, items.length⟩) h maxDepth hd (Nat.le_refl _)
      .root [] 0
  rw [List.append_nil] at hn
  simp only [root, hn]
  rfl

theorem root_deep {t : Tree} {input : ByteArray} {items : List Item} (h : Shows input t items)
    (hd : maxDepth < t.depth) :
    ∃ f, root ⟨input, ⟨items, #[], none, false⟩, items.length⟩ = .error f := by
  obtain ⟨f, hn⟩ :=
    node_deep (s := ⟨input, ⟨items, #[], none, false⟩, items.length⟩) h maxDepth hd (Nat.le_refl _)
      .root [] 0
  rw [List.append_nil] at hn
  refine ⟨f, ?_⟩
  unfold root
  simp only [hn]
  rfl

end Yaml.Build

namespace Yaml

open Json

/-- The text of a standard tree is read as the tree with its strings folded and the entries of its
mappings put one after the other. -/
theorem read_written {t t' : Tree} (hd : t.Standard) (ht : reread? t = some t')
    (hn : t.AllNames Lex.IsSimple)
    (ha : ∀ c ∈ write 0 t ['\n'], isAllowed c = true) (hdepth : t'.depth ≤ maxDepth) :
    read (String.ofList (write 0 t ['\n'])) = .ok t'.gather := by
  obtain ⟨start, tokens, stop, htokens, _, hstop, hspell⟩ := tokens_written hd ht ha
  obtain ⟨items, hs, hdoc⟩ := document_of_tokens start hspell hn hstop
  unfold read Source.ofText Document.ofText
  rw [String.toList_ofList, htokens, hdoc]
  exact Build.root_shown hs hdepth

end Yaml

end BootConfig
