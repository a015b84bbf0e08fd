import BootConfig.Proofs.Tree.Same
import Mathlib.Data.List.Induction
import Mathlib.Data.List.Nodup

/-!
# Mappings with distinct keys

Insertion, replacement and removal keep the keys of a mapping distinct. Entries inserted one after
the other come to stand in the order in which their keys occur first, each with the value that its
key has last.
-/

namespace BootConfig

namespace Entries

variable {leaf : Tree → Prop} {es es' : Entries} {key value : Tree}

/-! ## Distinct keys -/

theorem apart_iff : es.Apart ↔ (es.map (·.1)).Pairwise fun k k' => k.same k' = false := by
  rw [Apart, List.pairwise_map]

theorem Apart.nodup (h : es.Apart) : (es.map (·.1)).Nodup := by
  refine (apart_iff.mp h).imp fun {k k'} hne heq => ?_
  rw [heq, Tree.same_refl] at hne
  cases hne

theorem Apart.oneEach (h : es.Apart) : es.OneEach := by
  refine List.Nodup.filterMap (fun k k' s hk hk' => ?_) h.nodup
  rw [Tree.text?_eq_some.mp hk, Tree.text?_eq_some.mp hk']

theorem Apart.value_unique {v w : Tree} (h : es.Apart) (hv : (key, v) ∈ es) (hw : (key, w) ∈ es) :
    v = w :=
  congrArg Prod.snd (List.inj_on_of_nodup_map h.nodup hv hw rfl)

theorem Apart.of_keys (h : es.Apart) (hk : es'.map (·.1) = es.map (·.1)) : es'.Apart := by
  rw [apart_iff, hk]
  exact apart_iff.mp h

theorem Apart.append_new (h : es.Apart) (hn : has key es = false) :
    Apart (es ++ [(key, value)]) := by
  refine List.pairwise_append.mpr ⟨h, List.pairwise_singleton _ _, fun e he e' he' => ?_⟩
  rw [List.mem_singleton.mp he']
  exact has_eq_false.mp hn e he

theorem Apart.put (h : es.Apart) (key value : Tree) : (Entries.put key value es).Apart := by
  cases hk : has key es with
  | true => exact h.of_keys (keys_put_of_has hk)
  | false =>
      rw [put_of_not_has hk]
      exact h.append_new hk

theorem Apart.putNew (h : es.Apart) (key value : Tree) : (Entries.putNew key value es).Apart := by
  unfold Entries.putNew
  split
  · exact h
  · rename_i hk
    exact h.append_new (by simpa using hk)

theorem Apart.perm (h : es.Apart) (hk : Tree.KeyedEntries leaf es) (hp : es'.Perm es) :
    es'.Apart := by
  have hkeyed := Tree.keyedEntries_iff.mp hk
  have hapart : es.Pairwise fun e e' => e.1.same e'.1 = false ∧ e'.1.same e.1 = false :=
    h.imp_of_mem fun he he' hne =>
      ⟨hne, (Tree.same_comm (hkeyed _ he').1 (hkeyed _ he).1).trans hne⟩
  exact (hapart.perm hp.symm fun h => ⟨h.2, h.1⟩).imp fun h => h.1

/-! ## Keys and values -/

theorem has_eq_any (key : Tree) (es : Entries) : has key es = es.any fun e => e.1.same key := by
  induction es with
  | nil => rfl
  | cons e es ih =>
      obtain ⟨k, v⟩ := e
      cases hk : k.same key with
      | true => simp [has, find?, hk]
      | false => simpa [has, find?, hk] using ih

theorem keys_put (key value : Tree) (es : Entries) :
    (put key value es).map (·.1) = if has key es then es.map (·.1) else es.map (·.1) ++ [key] := by
  cases hk : has key es with
  | true => simp [keys_put_of_has hk]
  | false => simp [put_of_not_has hk]

theorem key_of_mem_put {e : Tree × Tree} (he : e ∈ put key value es) :
    (∃ e' ∈ es, e'.1 = e.1) ∨ e.1 = key := by
  have hm : e.1 ∈ (put key value es).map (·.1) := List.mem_map_of_mem he
  rw [keys_put] at hm
  split at hm
  · exact Or.inl (List.mem_map.mp hm)
  · exact (List.mem_append.mp hm).imp List.mem_map.mp List.mem_singleton.mp

end Entries

namespace Tree

variable {leaf : Tree → Prop} {es es' : Entries} {key value v : Tree}

theorem keyed_map :
    Keyed leaf (.map es) ↔ es.Apart ∧ ∀ e ∈ es, Keyed leaf e.1 ∧ Keyed leaf e.2 := by
  rw [Keyed, keyedEntries_iff]

/-- Distinct keys that have distinct keys themselves. -/
def KeysKeyed (leaf : Tree → Prop) (es : Entries) : Prop := es.Apart ∧ ∀ e ∈ es, e.1.Keyed leaf

theorem KeysKeyed.of_keys {es es' : Entries} (hk : es'.map (·.1) = es.map (·.1))
    (h : KeysKeyed leaf es) : KeysKeyed leaf es' := by
  refine ⟨h.1.of_keys hk, fun e he => ?_⟩
  have hm : e.1 ∈ es.map (·.1) := hk ▸ List.mem_map_of_mem he
  obtain ⟨e', he', hkey⟩ := List.mem_map.mp hm
  exact hkey ▸ h.2 e' he'

theorem Keyed.sublist (h : Keyed leaf (.map es)) (hs : es'.Sublist es) : Keyed leaf (.map es') := by
  obtain ⟨ha, hk⟩ := keyed_map.mp h
  exact keyed_map.mpr ⟨List.Pairwise.sublist hs ha, fun e he => hk e (hs.mem he)⟩

theorem Keyed.perm (h : Keyed leaf (.map es)) (hp : es'.Perm es) : Keyed leaf (.map es') := by
  obtain ⟨ha, hk⟩ := keyed_map.mp h
  exact keyed_map.mpr ⟨ha.perm h.2 hp, fun e he => hk e (hp.mem_iff.mp he)⟩

theorem Keyed.put (h : Keyed leaf (.map es)) (hk : key.Keyed leaf) (hv : value.Keyed leaf) :
    Keyed leaf (.map (es.put key value)) := by
  obtain ⟨ha, hes⟩ := keyed_map.mp h
  refine keyed_map.mpr ⟨ha.put key value, fun e he => ⟨?_, ?_⟩⟩
  · rcases Entries.key_of_mem_put he with ⟨e', he', hkey⟩ | rfl
    · exact hkey ▸ (hes e' he').1
    · exact hk
  · rcases Entries.mem_put he with he | he
    · exact (hes e he).2
    · exact he ▸ hv

theorem Keyed.putNew (h : Keyed leaf (.map es)) (hk : key.Keyed leaf) (hv : value.Keyed leaf) :
    Keyed leaf (.map (es.putNew key value)) := by
  obtain ⟨ha, hes⟩ := keyed_map.mp h
  refine keyed_map.mpr ⟨ha.putNew key value, fun e he => ?_⟩
  rcases Entries.mem_putNew_iff.mp he with he | ⟨_, rfl⟩
  · exact hes e he
  · exact ⟨hk, hv⟩

theorem Keyed.drop (h : Keyed leaf (.map es)) (key : Tree) : Keyed leaf (.map (es.drop key)) :=
  h.sublist (Entries.drop_sublist key es)

theorem Keyed.adjust (h : Keyed leaf (.map es)) (hv : value.Keyed leaf) :
    Keyed leaf (.map (es.adjust key value)) := by
  obtain ⟨ha, hes⟩ := keyed_map.mp h
  obtain ⟨ha', hkeys⟩ :=
    KeysKeyed.of_keys (Entries.keys_adjust key value es) ⟨ha, fun e he => (hes e he).1⟩
  refine keyed_map.mpr ⟨ha', fun e he => ⟨hkeys e he, ?_⟩⟩
  rcases Entries.mem_adjust he with he | he
  · exact (hes e he).2
  · exact he ▸ hv

theorem Keyed.find? (h : Keyed leaf (.map es)) (hf : es.find? key = some v) : v.Keyed leaf := by
  obtain ⟨k, _, hm⟩ := Entries.mem_of_find? hf
  exact ((keyed_map.mp h).2 _ hm).2

end Tree

/-! ## All mappings -/

namespace Tree

variable {leaf : Tree → Prop}

mutual

theorem Keyed.all : {t : Tree} → t.Keyed leaf → t.All leaf fun es => Keyed leaf (.map es)
  | .seq _, h => KeyedItems.all h
  | .map _, h => ⟨h, KeyedEntries.all h.2⟩
  | .tagged _ t, h => Keyed.all (t := t) h
  | .null, h | .bool _, h | .int _, h | .float _, h | .str _, h => h

theorem KeyedItems.all : {ts : List Tree} → KeyedItems leaf ts →
    AllItems leaf (fun es => Keyed leaf (.map es)) ts
  | [], _ => trivial
  | _ :: _, h => ⟨Keyed.all h.1, KeyedItems.all h.2⟩

theorem KeyedEntries.all : {es : Entries} → KeyedEntries leaf es →
    AllEntries leaf (fun es => Keyed leaf (.map es)) es
  | [], _ => trivial
  | (_, _) :: _, h => ⟨Keyed.all h.2.1, KeyedEntries.all h.2.2⟩

end

theorem Keyed.oneEach {t : Tree} (h : t.Keyed leaf) : t.All (fun _ => True) Entries.OneEach :=
  h.all.imp (fun _ _ => trivial) fun _ hes => (keyed_map.mp hes).1.oneEach

mutual

theorem Keyed.of_all : {t : Tree} → t.All leaf (KeysKeyed leaf) → t.Keyed leaf
  | .seq _, h => KeyedItems.of_all h
  | .map _, h => ⟨h.1.1, KeyedEntries.of_all h.1.2 h.2⟩
  | .tagged _ t, h => Keyed.of_all (t := t) h
  | .null, h | .bool _, h | .int _, h | .float _, h | .str _, h => h

theorem KeyedItems.of_all : {ts : List Tree} → AllItems leaf (KeysKeyed leaf) ts →
    KeyedItems leaf ts
  | [], _ => trivial
  | _ :: _, h => ⟨Keyed.of_all h.1, KeyedItems.of_all h.2⟩

theorem KeyedEntries.of_all : {es : Entries} → (∀ e ∈ es, e.1.Keyed leaf) →
    AllEntries leaf (KeysKeyed leaf) es → KeyedEntries leaf es
  | [], _, _ => trivial
  | (_, _) :: _, hk, h => ⟨hk _ List.mem_cons_self, Keyed.of_all h.1,
      KeyedEntries.of_all (fun e he => hk e (List.mem_cons_of_mem _ he)) h.2⟩

end

/-! ## Nodes of a tree -/

/-- The nodes of a tree: itself, and those of its elements, of its keys and values, and of what its
tag stands for. -/
inductive Has : Tree → Tree → Prop where
  | self (t : Tree) : Has t t
  | item {ts : List Tree} {t n : Tree} (hm : t ∈ ts) (h : Has t n) : Has (.seq ts) n
  | key {es : Entries} {e : Tree × Tree} {n : Tree} (hm : e ∈ es) (h : Has e.1 n) : Has (.map es) n
  | value {es : Entries} {e : Tree × Tree} {n : Tree} (hm : e ∈ es) (h : Has e.2 n) :
      Has (.map es) n
  | tagged {name : String} {t n : Tree} (h : Has t n) : Has (.tagged name t) n

theorem Keyed.has {t n : Tree} (h : t.Has n) (ht : t.Keyed leaf) : n.Keyed leaf := by
  induction h with
  | self _ => exact ht
  | item hm _ ih => exact ih (keyedItems_iff.mp ht _ hm)
  | key hm _ ih => exact ih ((keyed_map.mp ht).2 _ hm).1
  | value hm _ ih => exact ih ((keyed_map.mp ht).2 _ hm).2
  | tagged _ ih => exact ih ht

end Tree

/-! ## Entries one after the other -/

namespace Entries

variable {leaf : Tree → Prop} {pairs es : Entries} {key value : Tree}

theorem ofList_concat (pairs : Entries) (e : Tree × Tree) :
    ofList (pairs ++ [e]) = put e.1 e.2 (ofList pairs) := by
  simp [ofList]

/-- Keys and values have been inserted, not always together. -/
theorem mem_ofList {e : Tree × Tree} (he : e ∈ ofList pairs) :
    (∃ p ∈ pairs, p.1 = e.1) ∧ ∃ p ∈ pairs, p.2 = e.2 := by
  induction pairs using List.reverseRecOn generalizing e with
  | nil => cases he
  | append_singleton pairs p ih =>
      rw [ofList_concat] at he
      constructor
      · rcases key_of_mem_put he with ⟨e', he', hkey⟩ | hkey
        · obtain ⟨p', hp', hkey'⟩ := (ih he').1
          exact ⟨p', by simp [hp'], hkey'.trans hkey⟩
        · exact ⟨p, by simp, hkey.symm⟩
      · rcases mem_put he with he | hvalue
        · obtain ⟨p', hp', hvalue⟩ := (ih he).2
          exact ⟨p', by simp [hp'], hvalue⟩
        · exact ⟨p, by simp, hvalue.symm⟩

theorem keyed_ofList (h : ∀ p ∈ pairs, p.1.Keyed leaf ∧ p.2.Keyed leaf) :
    Tree.Keyed leaf (.map (ofList pairs)) := by
  induction pairs using List.reverseRecOn with
  | nil => exact ⟨List.Pairwise.nil, trivial⟩
  | append_singleton pairs p ih =>
      obtain ⟨hk, hv⟩ := h p (by simp)
      rw [ofList_concat]
      exact (ih fun p hp => h p (by simp [hp])).put hk hv

/-- An entry that is there after an insertion has either been put there or been left. -/
theorem mem_put_cases (h : Tree.Keyed leaf (.map es)) (hk : key.Keyed leaf) {e : Tree × Tree}
    (he : e ∈ put key value es) :
    e.1.same key = true ∧ e.2 = value ∨ e.1.same key = false ∧ e ∈ es := by
  induction es with
  | nil =>
      simp only [put, List.mem_singleton] at he
      rw [he]
      exact Or.inl ⟨Tree.same_refl key, rfl⟩
  | cons e' es ih =>
      obtain ⟨k, w⟩ := e'
      obtain ⟨hapart, hkeyed⟩ := Tree.keyed_map.mp h
      obtain ⟨hhead, _⟩ := List.pairwise_cons.mp hapart
      have htail : Tree.Keyed leaf (.map es) := h.sublist (List.sublist_cons_self _ _)
      simp only [put] at he
      split at he
      · rename_i hkk
        rcases List.mem_cons.mp he with rfl | he
        · exact Or.inl ⟨hkk, rfl⟩
        · refine Or.inr ⟨?_, List.mem_cons_of_mem _ he⟩
          cases hek : e.1.same key with
          | false => rfl
          | true =>
              have hke : key.same e.1 = true :=
                Tree.same_symm _ (hkeyed e (List.mem_cons_of_mem _ he)).1 hk hek
              have hkke := Tree.same_trans k hkk hke
              rw [hhead e he] at hkke
              cases hkke
      · rename_i hkk
        rcases List.mem_cons.mp he with rfl | he
        · exact Or.inr ⟨by simpa using hkk, List.mem_cons_self⟩
        · exact (ih htail he).imp_right fun h => ⟨h.1, List.mem_cons_of_mem _ h.2⟩

/-- The keys of some entries in the order in which they occur first, each with the value that it has
last. -/
structure Settles (pairs es : Entries) : Prop where
  apart : es.Apart
  keys : es.map (·.1) = (pairs.map (·.1)).eraseDupsBy Tree.same
  last : ∀ e ∈ es, ∃ front key back, pairs = front ++ (key, e.2) :: back ∧ e.1.same key = true ∧
    ∀ p ∈ back, e.1.same p.1 = false

theorem last_unique {pairs front front' back back' : Entries} {key k k' v v' : Tree}
    (h : pairs = front ++ (k, v) :: back)
    (h' : pairs = front' ++ (k', v') :: back') (hk : key.same k = true) (hk' : key.same k' = true)
    (hback : ∀ p ∈ back, key.same p.1 = false) (hback' : ∀ p ∈ back', key.same p.1 = false) :
      v = v' := by
  rw [h] at h'
  rcases List.append_eq_append_iff.mp h' with ⟨m, _, hm⟩ | ⟨m, _, hm⟩
  · cases m with
    | nil => exact congrArg Prod.snd (List.cons.inj hm).1
    | cons c m =>
        obtain ⟨_, rfl⟩ := List.cons.inj hm
        rw [hback (k', v') (by simp)] at hk'
        cases hk'
  · cases m with
    | nil => exact congrArg Prod.snd (List.cons.inj hm).1.symm
    | cons c m =>
        obtain ⟨_, rfl⟩ := List.cons.inj hm
        rw [hback' (k, v) (by simp)] at hk
        cases hk

theorem eq_of_keys {es es' : Entries} (hk : es.map (·.1) = es'.map (·.1))
    (hv : ∀ e ∈ es, ∀ e' ∈ es', e.1 = e'.1 → e.2 = e'.2) : es = es' := by
  induction es generalizing es' with
  | nil => exact (List.map_eq_nil_iff.mp hk.symm).symm
  | cons e es ih =>
      cases es' with
      | nil => cases hk
      | cons e' es' =>
          obtain ⟨hkey, hkeys⟩ := List.cons.inj hk
          have hhead : e = e' := Prod.ext hkey (hv e List.mem_cons_self e' List.mem_cons_self hkey)
          rw [hhead, ih hkeys fun e he e' he' =>
            hv e (List.mem_cons_of_mem _ he) e' (List.mem_cons_of_mem _ he')]

theorem Settles.unique {es es' : Entries} (h : Settles pairs es) (h' : Settles pairs es') :
    es = es' := by
  refine eq_of_keys (h.keys.trans h'.keys.symm) fun e he e' he' hkey => ?_
  obtain ⟨front, k, back, hpairs, hk, hback⟩ := h.last e he
  obtain ⟨front', k', back', hpairs', hk', hback'⟩ := h'.last e' he'
  rw [← hkey] at hk' hback'
  exact last_unique hpairs hpairs' hk hk' hback hback'

theorem eraseDupsBy_concat {α : Type} (r : α → α → Bool) (as : List α) (a : α) :
    (as ++ [a]).eraseDupsBy r = if (as.eraseDupsBy r).any (r a) then as.eraseDupsBy r
      else as.eraseDupsBy r ++ [a] := by
  have hloop : ∀ bs, List.eraseDupsBy.loop r (as ++ [a]) bs =
      if (List.eraseDupsBy.loop r as bs).any (r a) then List.eraseDupsBy.loop r as bs
      else List.eraseDupsBy.loop r as bs ++ [a] := by
    induction as with
    | nil =>
        intro bs
        cases hb : bs.any (r a) <;> simp [List.eraseDupsBy.loop, hb]
    | cons b as ih =>
        intro bs
        cases hb : bs.any (r b) <;> simp [List.eraseDupsBy.loop, hb, ih]
  exact hloop []

theorem settles_ofList (h : ∀ p ∈ pairs, p.1.Keyed leaf ∧ p.2.Keyed leaf) :
    Settles pairs (ofList pairs) := by
  refine ⟨(keyed_ofList h).1, ?_, ?_⟩
  · induction pairs using List.reverseRecOn with
    | nil => rfl
    | append_singleton pairs p ih =>
        have hpairs : ∀ p ∈ pairs, p.1.Keyed leaf ∧ p.2.Keyed leaf := fun p hp => h p (by simp [hp])
        have hkeyed := (Tree.keyed_map.mp (keyed_ofList hpairs)).2
        have hany : has p.1 (ofList pairs) = ((ofList pairs).map (·.1)).any p.1.same := by
          rw [has_eq_any, List.any_map, Bool.eq_iff_iff, List.any_eq_true, List.any_eq_true]
          refine exists_congr fun e => and_congr_right fun he => ?_
          rw [Tree.same_comm (hkeyed e he).1 (h p (by simp)).1]
          rfl
        rw [ofList_concat, keys_put, hany, ih hpairs, List.map_append, List.map_singleton,
          eraseDupsBy_concat]
  · induction pairs using List.reverseRecOn with
    | nil => exact fun _ he => by cases he
    | append_singleton pairs p ih =>
        have hpairs : ∀ p ∈ pairs, p.1.Keyed leaf ∧ p.2.Keyed leaf := fun p hp => h p (by simp [hp])
        intro e he
        rw [ofList_concat] at he
        rcases mem_put_cases (keyed_ofList hpairs) (h p (by simp)).1 he with ⟨hk, hv⟩ | ⟨hk, he⟩
        · exact ⟨pairs, p.1, [], by rw [hv], hk, by simp⟩
        · obtain ⟨front, key, back, hsplit, hkey, hback⟩ := ih hpairs e he
          refine ⟨front, key, back ++ [p], by rw [hsplit]; simp, hkey, fun p' hp' => ?_⟩
          rcases List.mem_append.mp hp' with hp' | hp'
          · exact hback p' hp'
          · rw [List.mem_singleton.mp hp', hk]

end Entries

end BootConfig
