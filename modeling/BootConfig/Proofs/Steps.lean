import Mathlib.Data.List.Forall2

/-!
# Steps of a reader

A reader takes a state to a result and a new state, or fails. What a sequence of readers does is
what its first reader does, and then the others. A function that may fail is taken along a list in
order.
-/

namespace BootConfig.Steps

section Readers

variable {σ ε α β : Type} {x : StateT σ (Except ε) α} {f : α → StateT σ (Except ε) β} {s s' : σ}
  {a : α}

/-! ## Sequences -/

theorem bind_ok (h : x s = .ok (a, s')) : (x >>= f) s = f a s' := by
  change (x s >>= fun p => f p.1 p.2) = _
  rw [h]
  rfl

theorem bind_error {e : ε} (h : x s = .error e) : (x >>= f) s = .error e := by
  change (x s >>= fun p => f p.1 p.2) = _
  rw [h]
  rfl

theorem ok_of_bind {r : β × σ} (h : (x >>= f) s = .ok r) :
    ∃ a s', x s = .ok (a, s') ∧ f a s' = .ok r := by
  cases hx : x s with
  | error e => rw [bind_error hx] at h; cases h
  | ok p => exact ⟨p.1, p.2, rfl, by rw [bind_ok hx] at h; exact h⟩

theorem bind_apply : (x >>= f) s = match x s with
    | .ok (a, s') => f a s'
    | .error e => .error e := by
  cases hx : x s with
  | error e => exact bind_error hx
  | ok p => exact bind_ok (show x s = .ok (p.1, p.2) from hx)

theorem map_apply {γ : Type} {g : α → γ} : (g <$> x) s = match x s with
    | .ok (a, s') => .ok (g a, s')
    | .error e => .error e := by
  rw [map_eq_pure_bind, bind_apply]
  cases x s <;> rfl

theorem ok_of_map {γ : Type} {g : α → γ} {r : γ} (h : (g <$> x) s = .ok (r, s')) :
    ∃ a, x s = .ok (a, s') ∧ g a = r := by
  rw [map_apply] at h
  cases hx : x s with
  | error e => simp only [hx] at h; cases h
  | ok p => simp only [hx] at h; cases h; exact ⟨p.1, rfl, rfl⟩

/-! ## Single readers -/

@[simp] theorem pure_apply : (pure a : StateT σ (Except ε) α) s = .ok (a, s) := rfl

@[simp] theorem get_apply : (get : StateT σ (Except ε) σ) s = .ok (s, s) := rfl

@[simp] theorem set_apply : (set s' : StateT σ (Except ε) PUnit) s = .ok (⟨⟩, s') := rfl

@[simp] theorem modify_apply {g : σ → σ} :
    (modify g : StateT σ (Except ε) PUnit) s = .ok (⟨⟩, g s) := rfl

@[simp] theorem throw_apply {e : ε} : (throw e : StateT σ (Except ε) α) s = .error e := rfl

theorem get_bind {g : σ → StateT σ (Except ε) β} : (get >>= g) s = g s s := rfl

theorem modify_bind {h : σ → σ} {g : PUnit → StateT σ (Except ε) β} :
    (modify h >>= g) s = g ⟨⟩ (h s) := rfl

theorem set_bind {g : PUnit → StateT σ (Except ε) β} : (set s' >>= g) s = g ⟨⟩ s' := rfl

end Readers

/-! ## Results that can be computed -/

section Results

variable {ε α : Type} {x : Except ε α}

theorem eq_ok_of_toOption {a : α} (h : x.toOption = some a) : x = .ok a := by
  cases x with
  | error _ => cases h
  | ok b => cases h; rfl

theorem exists_ok_of_isSome (h : x.toOption.isSome = true) : ∃ a, x = .ok a := by
  cases x with
  | error _ => cases h
  | ok a => exact ⟨a, rfl⟩

end Results

/-! ## Functions along a list -/

section Lists

variable {ε α β γ : Type} {f : α → Except ε β}

theorem ok_of_then {x : Except ε α} {r : β} (h : (x >>= f) = .ok r) :
    ∃ a, x = .ok a ∧ f a = .ok r := by
  cases x with
  | error e => cases h
  | ok a => exact ⟨a, rfl, h⟩

theorem then_eq_ok_iff {x : Except ε α} {r : β} :
    (x >>= f) = .ok r ↔ ∃ a, x = .ok a ∧ f a = .ok r := by
  refine ⟨ok_of_then, ?_⟩
  rintro ⟨a, rfl, h⟩
  exact h

theorem mapM_eq_ok_iff {xs : List α} {ys : List β} :
    xs.mapM f = .ok ys ↔ List.Forall₂ (fun x y => f x = .ok y) xs ys := by
  induction xs generalizing ys with
  | nil =>
      rw [List.mapM_nil, List.forall₂_nil_left_iff]
      exact ⟨fun h => by cases h; rfl, fun h => by rw [h]; rfl⟩
  | cons x xs ih =>
      rw [List.mapM_cons, List.forall₂_cons_left_iff, then_eq_ok_iff]
      constructor
      · rintro ⟨y, hx, h⟩
        obtain ⟨ys', hxs, h⟩ := ok_of_then h
        cases h
        exact ⟨y, ys', hx, ih.mp hxs, rfl⟩
      · rintro ⟨y, ys', hx, hxs, rfl⟩
        exact ⟨y, hx, then_eq_ok_iff.mpr ⟨ys', ih.mpr hxs, rfl⟩⟩

theorem mapM_reverse_eq_ok_iff {xs : List α} {ys : List β} :
    xs.reverse.mapM f = .ok ys ↔ List.Forall₂ (fun x y => f x = .ok y) xs ys.reverse := by
  rw [mapM_eq_ok_iff, ← List.forall₂_reverse_iff, List.reverse_reverse]

/-! ## Related lists -/

variable {r : α → β → Prop} {as : List α} {bs : List β}

theorem related_of_mem (h : List.Forall₂ r as bs) {b : β} (hb : b ∈ bs) : ∃ a ∈ as, r a b := by
  induction h with
  | nil => cases hb
  | cons hr _ ih =>
      rcases List.mem_cons.mp hb with rfl | hb
      · exact ⟨_, List.mem_cons_self, hr⟩
      · obtain ⟨a, ha, hr⟩ := ih hb
        exact ⟨a, List.mem_cons_of_mem _ ha, hr⟩

theorem related_getElem? (h : List.Forall₂ r as bs) {a : α} :
    {i : Nat} → as[i]? = some a → ∃ b, bs[i]? = some b ∧ r a b := by
  induction h with
  | nil => simp
  | cons hr _ ih =>
      intro i hi
      cases i with
      | zero => cases hi; exact ⟨_, rfl, hr⟩
      | succ i => simpa using ih (by simpa using hi)

theorem exists_forall₂_iff : (∃ bs, List.Forall₂ r as bs) ↔ ∀ a ∈ as, ∃ b, r a b := by
  induction as with
  | nil => exact ⟨fun _ => by simp, fun _ => ⟨[], .nil⟩⟩
  | cons a as ih =>
      rw [List.forall_mem_cons, ← ih]
      constructor
      · rintro ⟨bs, h⟩
        obtain ⟨b, bs, hb, hbs, _⟩ := List.forall₂_cons_left_iff.mp h
        exact ⟨⟨b, hb⟩, bs, hbs⟩
      · rintro ⟨⟨b, hb⟩, bs, hbs⟩
        exact ⟨b :: bs, .cons hb hbs⟩

theorem map_eq_of_related {f : α → γ} {g : β → γ} (h : List.Forall₂ r as bs)
    (hr : ∀ a b, r a b → g b = f a) : bs.map g = as.map f := by
  induction h with
  | nil => rfl
  | cons h _ ih => rw [List.map_cons, List.map_cons, hr _ _ h, ih]

end Lists

end BootConfig.Steps
