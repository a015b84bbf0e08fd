import BootConfig.Proofs.Steps

/-!
# What readers keep

A relation between the state before a reader and the one behind it, and how it carries over to a
sequence.
-/

namespace BootConfig.Steps

variable {σ ε α β : Type} {R S T : σ → σ → Prop} {x : StateT σ (Except ε) α}
  {f : α → StateT σ (Except ε) β}

/-- Wherever the reader succeeds, the state before it is related to the one behind it. -/
def Along (R : σ → σ → Prop) (x : StateT σ (Except ε) α) : Prop :=
  ∀ s a s', x s = .ok (a, s') → R s s'

namespace Along

theorem rel {s s' : σ} {a : α} (hx : Along R x) (h : x s = .ok (a, s')) : R s s' := hx s a s' h

theorem bind_of (h : ∀ s s' s'', R s s' → S s' s'' → T s s'') (hx : Along R x)
    (hf : ∀ a, Along S (f a)) : Along T (x >>= f) := by
  intro s b s'' hs
  obtain ⟨a, s', ha, hb⟩ := ok_of_bind hs
  exact h _ _ _ (hx _ _ _ ha) (hf a _ _ _ hb)

theorem imp (h : ∀ s s', R s s' → S s s') (hx : Along R x) : Along S x :=
  fun s a s' hs => h _ _ (hx s a s' hs)

/-- A reader that looks at the state only, and goes on with it. -/
theorem get {g : σ → StateT σ (Except ε) β} (h : ∀ s, Along R (g s)) :
    Along R (MonadState.get >>= g) :=
  fun s b s' hs => h s s b s' hs

theorem throw (e : ε) : Along R (MonadExcept.throw e : StateT σ (Except ε) α) :=
  fun _ _ _ h => by cases h

theorem modify {g : σ → σ} (h : ∀ s, R s (g s)) : Along R (modify g : StateT σ (Except ε) PUnit) :=
  fun s _ _ hs => by cases hs; exact h s

theorem ite {c : Prop} [Decidable c] {y : StateT σ (Except ε) α} (hx : c → Along R x)
    (hy : ¬c → Along R y) : Along R (if c then x else y) := by
  split
  · exact hx ‹_›
  · exact hy ‹_›

theorem pure [Std.Refl R] (a : α) : Along R (Pure.pure a : StateT σ (Except ε) α) :=
  fun s _ _ hs => by cases hs; exact Std.Refl.refl s

theorem bind [Trans R R R] (hx : Along R x) (hf : ∀ a, Along R (f a)) : Along R (x >>= f) :=
  bind_of (fun _ _ _ h h' => Trans.trans h h') hx hf

/-- A step that is taken under a condition, and what follows in any case. -/
theorem andThen [Trans R R R] {c : Prop} [Decidable c] {x : StateT σ (Except ε) Unit}
    {f : Unit → StateT σ (Except ε) β}
    (hx : c → Along R x) (hf : ∀ a, Along R (f a)) : Along R (if c then x >>= f else f ()) :=
  .ite (fun h => .bind (hx h) hf) fun _ => hf ()

end Along

/-- Whatever the reader gives satisfies a predicate. -/
def Gives (p : α → Prop) (x : StateT σ (Except ε) α) : Prop := ∀ s a s', x s = .ok (a, s') → p a

namespace Gives

variable {p : α → Prop} {q : β → Prop}

theorem pure {a : α} (h : p a) : Gives p (Pure.pure a : StateT σ (Except ε) α) :=
  fun _ _ _ hs => by cases hs; exact h

theorem bind (hx : Gives p x) (hf : ∀ a, p a → Gives q (f a)) : Gives q (x >>= f) := by
  intro s b s'' hs
  obtain ⟨a, s', ha, hb⟩ := ok_of_bind hs
  exact hf a (hx _ _ _ ha) _ _ _ hb

/-- The last reader decides. -/
theorem last (hf : ∀ a, Gives q (f a)) : Gives q (x >>= f) :=
  bind (p := fun _ => True) (fun _ _ _ _ => trivial) fun a _ => hf a

theorem ite {c : Prop} [Decidable c] {y : StateT σ (Except ε) α} (hx : c → Gives p x)
    (hy : ¬c → Gives p y) : Gives p (if c then x else y) := by
  split
  · exact hx ‹_›
  · exact hy ‹_›

theorem andThen {c : Prop} [Decidable c] {x : StateT σ (Except ε) Unit}
    {f : Unit → StateT σ (Except ε) β}
    (hf : ∀ a, Gives q (f a)) : Gives q (if c then x >>= f else f ()) :=
  .ite (fun _ => .last hf) fun _ => hf ()

end Gives

/-- What holds behind a reader that succeeds from one state. -/
def After (x : StateT σ (Except ε) α) (s : σ) (p : α → σ → Prop) : Prop :=
  ∀ a s', x s = .ok (a, s') → p a s'

namespace After

variable {p : α → σ → Prop} {q : β → σ → Prop} {s : σ}

theorem imp {p' : α → σ → Prop} (h : ∀ a s', p a s' → p' a s') (hx : After x s p) : After x s p' :=
  fun a s' hs => h _ _ (hx a s' hs)

theorem pure {a : α} (h : p a s) : After (Pure.pure a : StateT σ (Except ε) α) s p :=
  fun _ _ hs => by cases hs; exact h

theorem throw (e : ε) : After (MonadExcept.throw e : StateT σ (Except ε) α) s p :=
  fun _ _ h => by cases h

theorem bind (hx : After x s p) (hf : ∀ a s', p a s' → After (f a) s' q) : After (x >>= f) s q := by
  intro b s'' hs
  obtain ⟨a, s', ha, hb⟩ := ok_of_bind hs
  exact hf a s' (hx _ _ ha) _ _ hb

theorem ite {c : Prop} [Decidable c] {y : StateT σ (Except ε) α} (hx : c → After x s p)
    (hy : ¬c → After y s p) : After (if c then x else y) s p := by
  split
  · exact hx ‹_›
  · exact hy ‹_›

/-- A step that is taken under a condition, and what follows in any case. -/
theorem andThen {c : Prop} [Decidable c] {x : StateT σ (Except ε) Unit}
    {f : Unit → StateT σ (Except ε) β} {p : σ → Prop} (hx : After x s fun _ => p) (hs : p s)
    (hf : ∀ s', p s' → After (f ()) s' q) : After (if c then x >>= f else f ()) s q :=
  .ite (fun _ => .bind hx fun _ s' h => hf s' h) fun _ => hf s hs

end After

end BootConfig.Steps
