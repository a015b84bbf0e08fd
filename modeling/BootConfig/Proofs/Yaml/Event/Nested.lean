import BootConfig.Proofs.Yaml.Event.Progress
import BootConfig.Yaml.Document

/-!
# Nesting

The events of a text open and close what they should: each node comes where one is awaited, and each
collection ends where a node of it could begin, a mapping never between a key and its value. What is
awaited can be told from the grammar at every step.
-/

namespace BootConfig.Yaml

open Steps

/-- What may come next: a node at its place, or the end of a document. -/
inductive Awaits where
  | root
  | element
  | key
  | value
  | close
deriving DecidableEq

namespace Awaits

/-- What is awaited in front of a node and behind it. -/
inductive Node : List Awaits → List Awaits → Prop where
  | root (as : List Awaits) : Node (.root :: as) as
  | element (as : List Awaits) : Node (.element :: as) (.element :: as)
  | key (as : List Awaits) : Node (.key :: as) (.value :: as)
  | value (as : List Awaits) : Node (.value :: as) (.key :: as)

end Awaits

/-- What an event or item does to what is awaited. -/
inductive Role where
  | leaf
  | opens (a : Awaits)
  | closes (a : Awaits)
  | begins
  | outside

namespace Role

def Turns : Role → List Awaits → List Awaits → Prop
  | leaf, as, as' => Awaits.Node as as'
  | opens a, as, as' => ∃ behind, Awaits.Node as behind ∧ as' = a :: behind
  | closes a, as, as' => as = a :: as'
  | begins, as, as' => as = [] ∧ as' = [.root, .close]
  | outside, as, as' => as = [] ∧ as' = []

def Runs : List Role → List Awaits → List Awaits → Prop
  | [], as, as' => as = as'
  | r :: rs, as, as' => ∃ as₁, r.Turns as as₁ ∧ Runs rs as₁ as'

theorem Runs.append {as as' as'' : List Awaits} {rs rs' : List Role} (h : Runs rs as as')
    (h' : Runs rs' as' as'') : Runs (rs ++ rs') as as'' := by
  induction rs generalizing as with
  | nil => exact (show as = as' from h) ▸ h'
  | cons r rs ih =>
      obtain ⟨as₁, ht, hr⟩ := h
      exact ⟨as₁, ht, ih hr⟩

end Role

def Event.Kind.role : Event.Kind → Role
  | .streamStart | .streamEnd => .outside
  | .documentStart => .begins
  | .documentEnd => .closes .close
  | .aliasOf _ | .scalar .. => .leaf
  | .sequenceStart _ => .opens .element
  | .sequenceEnd => .closes .element
  | .mappingStart _ => .opens .key
  | .mappingEnd => .closes .key

/-- What is awaited where the grammar expects something. -/
def Expect.awaits : Expect → List Awaits
  | .stream | .document _ | .nothing => []
  | .documentEnd => [.close]
  | .content | .blockNode => [.root]
  | .blockEntry _ | .indentlessEntry | .flowEntry .. => [.element]
  | .blockKey _ | .flowKey .. => [.key]
  | .blockValue _ | .flowValue _ | .flowNoValue _ => [.value]
  | .pairKey _ | .pairEnd _ => [.key, .element]
  | .pairValue _ => [.value, .element]

namespace Grammar

/-- What is awaited once what is expected now is complete. -/
def left (g : Grammar) : List Awaits := g.stack.flatMap Expect.awaits

def awaits (g : Grammar) : List Awaits := g.expect.awaits ++ g.left

theorem left_nil {g : Grammar} (h : g.stack = []) : g.left = [] := by rw [left, h]; rfl

end Grammar

namespace Parse

/-- A reader of an event that fits what is awaited. -/
abbrev Turns (as : List Awaits) (x : Parse Event) (g : Grammar) : Prop :=
  After x g fun e g' => e.kind.role.Turns as g'.awaits

variable {as : List Awaits} {g : Grammar} {t : Token} {ts : List Token} {e : Expect} {event : Event}

theorem turns_fail {cause : Cause} {place : Mark} {context : Option (Activity × Mark)} :
    Turns as (fail cause place context) g := .throw _

theorem turns_next (h : event.kind.role.Turns as (e.awaits ++ g.left)) :
    Turns as (next e >>= fun _ => pure event) g := fun _ _ hs => by
  cases hs
  exact h

theorem turns_later {f : Unit → Parse Event}
    (h : Turns as (f ()) { g with stack := e :: g.stack }) : Turns as (later e >>= f) g := h

theorem turns_complete (h : event.kind.role.Turns as g.left) :
    Turns as (complete >>= fun _ => pure event) g := by
  intro _ g' hs
  unfold Parse.complete at hs
  rw [modify_bind] at hs
  unfold Grammar.left at h
  cases hstack : g.stack with
  | nil =>
      simp only [hstack] at hs h
      cases hs
      exact h
  | cons e es =>
      simp only [hstack] at hs h
      cases hs
      exact h

theorem turns_noNode {place : Mark} (h : Awaits.Node as (e.awaits ++ g.left)) :
    Turns as (noNode place e) g := turns_next h

/-! ## Nodes -/

theorem turns_contentAfter {inBlock indentless : Bool} {w : Written} {p : Properties}
    (h : Awaits.Node as g.left) : Turns as (contentAfter inBlock indentless w p) g := by
  have hmissing : ∀ t : Token, Turns as (contentAfter.missing inBlock w p t) g := fun t =>
    .ite (fun _ => turns_complete h) fun _ => turns_fail
  refine after_peek fun t ts ht => ?_
  have hopened : ∀ {e : Expect} {kind : Event.Kind}, kind.role.Turns as (e.awaits ++ g.left) →
      Turns as (contentAfter.opened w t e kind) g := fun hk => after_skip ht (turns_next hk)
  split
  · exact .ite (fun _ => turns_next ⟨_, h, rfl⟩) fun _ => hmissing t
  · exact after_skip ht (turns_complete h)
  · exact hopened ⟨_, h, rfl⟩
  · exact hopened ⟨_, h, rfl⟩
  · exact .ite (fun _ => hopened ⟨_, h, rfl⟩) fun _ => hmissing t
  · exact .ite (fun _ => hopened ⟨_, h, rfl⟩) fun _ => hmissing t
  · exact hmissing t

theorem turns_node {inBlock indentless : Bool} (h : Awaits.Node as g.left) :
    Turns as (node inBlock indentless) g := by
  refine after_peek fun t ts ht => ?_
  split
  · exact after_skip ht (turns_complete h)
  · refine .bind consumes_written fun w g₁ ⟨ts, hg₁, _⟩ => .bind after_properties fun p g₂ hg₂ => ?_
    subst hg₁ hg₂
    exact turns_contentAfter h

/-- A node with something left for later. -/
theorem turns_behind {inBlock indentless : Bool} (h : Awaits.Node as (e.awaits ++ g.left)) :
    Turns as (later e >>= fun _ => node inBlock indentless) g := turns_later (turns_node h)

/-! ## Collections -/

theorem turns_blockEntry (began : Mark) : Turns (.element :: g.left) (blockEntry began) g :=
  after_peek fun t ts ht => by
  split
  · refine after_skip ht (after_peek fun t' ts' ht' => ?_)
    split
    · exact turns_noNode (.element _)
    · exact turns_noNode (.element _)
    · exact turns_behind (.element _)
  · exact after_skip ht (turns_complete rfl)
  · exact turns_fail

theorem turns_indentlessEntry : Turns (.element :: g.left) indentlessEntry g :=
  after_peek fun t ts ht => by
  split
  · refine after_skip ht (after_peek fun t' ts' ht' => ?_)
    split
    · exact turns_noNode (.element _)
    · exact turns_noNode (.element _)
    · exact turns_noNode (.element _)
    · exact turns_noNode (.element _)
    · exact turns_behind (.element _)
  · exact turns_complete rfl

theorem turns_blockPart {indicatorEnd : Mark} (h : Awaits.Node as (e.awaits ++ g.left)) :
    Turns as (blockPart indicatorEnd e) g :=
  after_peek fun t ts ht => by
    split
    · exact turns_noNode h
    · exact turns_noNode h
    · exact turns_noNode h
    · exact turns_behind h

theorem turns_blockKey (began : Mark) : Turns (.key :: g.left) (blockKey began) g :=
  after_peek fun t ts ht => by
  split
  · exact after_skip ht (turns_blockPart (.key _))
  · exact after_skip ht (turns_complete rfl)
  · exact turns_fail

theorem turns_blockValue (began : Mark) : Turns (.value :: g.left) (blockValue began) g :=
  after_peek fun t ts ht => by
  split
  · exact after_skip ht (turns_blockPart (.value _))
  · exact turns_noNode (.value _)

theorem turns_closed {kind : Event.Kind} (h : kind.role.Turns as g.left) :
    Turns as (closed kind) g :=
  after_peek fun _ _ ht => after_skip ht (turns_complete h)

/-- The comma in front of all entries but the first. -/
theorem turns_separated {first : Bool} {cause : Cause} {activity : Activity} {began : Mark}
    {f : Unit → Parse Event} (hf : ∀ g', g'.stack = g.stack → Turns as (f ()) g') :
    Turns as (if !first then
      peek >>= fun t =>
        if t.kind ≠ .flowEntry then
          (fail cause t.start (some (activity, began)) : Parse Unit) >>= fun _ => skip >>= f
        else skip >>= f
      else f ()) g :=
  .ite (fun _ => after_peek fun _ _ ht =>
    .ite (fun _ => .bind (p := fun _ _ => False) (.throw _) fun _ _ h => h.elim)
    fun _ => after_skip ht (hf _ rfl)) fun _ => hf _ rfl

theorem turns_flowEntry (first : Bool) (began : Mark) :
    Turns (.element :: g.left) (flowEntry first began) g :=
  after_peek fun t ts ht => by
    refine .ite (fun _ => turns_closed rfl) fun _ => turns_separated fun g' hg' =>
      after_peek fun t ts ht => ?_
    have hleft : g'.left = g.left := congrArg (List.flatMap Expect.awaits) hg'
    rw [← hleft]
    split
    · exact after_skip ht (turns_next ⟨_, .element _, rfl⟩)
    · exact turns_closed rfl
    · exact turns_behind (.element _)

theorem turns_pairKey (began : Mark) : Turns (.key :: .element :: g.left) (pairKey began) g :=
  after_peek fun t ts ht => by
  have hnone :
      Turns (.key :: .element :: g.left) (skip >>= fun _ => noNode t.stop (.pairValue began)) g :=
    after_skip ht (turns_noNode (.key _))
  split
  · exact hnone
  · exact hnone
  · exact hnone
  · exact turns_behind (.key _)

theorem turns_pairValue (began : Mark) : Turns (.value :: .element :: g.left) (pairValue began) g :=
  after_peek fun t ts ht => by
  split
  · refine after_skip ht (after_peek fun t' ts' ht' => ?_)
    split
    · exact turns_noNode (.value _)
    · exact turns_noNode (.value _)
    · exact turns_behind (.value _)
  · exact turns_noNode (.value _)

theorem turns_pairEnd (began : Mark) : Turns (.key :: .element :: g.left) (pairEnd began) g :=
  after_peek fun _ _ _ => turns_next rfl

theorem turns_flowKey (first : Bool) (began : Mark) :
    Turns (.key :: g.left) (flowKey first began) g := after_peek fun t ts ht => by
  refine .ite (fun _ => turns_closed rfl) fun _ => turns_separated fun g' hg' =>
    after_peek fun t ts ht => ?_
  have hleft : g'.left = g.left := congrArg (List.flatMap Expect.awaits) hg'
  rw [← hleft]
  split
  · refine after_skip ht (after_peek fun t' ts' ht' => ?_)
    split
    · exact turns_noNode (.key _)
    · exact turns_noNode (.key _)
    · exact turns_noNode (.key _)
    · exact turns_behind (.key _)
  · exact turns_closed rfl
  · exact turns_behind (.key _)

theorem turns_flowValue (began : Mark) : Turns (.value :: g.left) (flowValue began) g :=
  after_peek fun t ts ht => by
  split
  · refine after_skip ht (after_peek fun t' ts' ht' => ?_)
    split
    · exact turns_noNode (.value _)
    · exact turns_noNode (.value _)
    · exact turns_behind (.value _)
  · exact turns_noNode (.value _)

theorem turns_flowNoValue (began : Mark) : Turns (.value :: g.left) (flowNoValue began) g :=
  after_peek fun _ _ _ => turns_noNode (.value _)

/-! ## Documents -/

theorem turns_content : Turns (.root :: g.left) content g := after_peek fun _ _ _ =>
  .ite (fun _ => turns_complete (.root _)) fun _ => turns_node (.root _)

theorem turns_documentEnd (hg : g.stack = []) : Turns [.close] documentEnd g := by
  refine after_peek fun t ts ht e g' h => ?_
  change (if t.kind = .documentEnd then skip >>= fun _ => pure ⟨.documentEnd, t.start, t.stop⟩
    else pure ⟨.documentEnd, t.start, t.start⟩ : Parse Event)
      { g with expect := .document false, handles := [] } = _ at h
  split at h <;> cases h <;> exact congrArg _ (Grammar.left_nil hg).symm

theorem turns_document {bare : Bool} (hg : g.stack = []) : Turns [] (document bare) g := by
  unfold document
  refine .andThen (p := fun g₁ => g₁.stack = []) (drops_skipDocumentEnds.imp fun _ g₁ h =>
    h.stack.trans hg) hg fun g₁ hg₁ => after_peek fun t ts ht => ?_
  refine .ite (fun _ => after_skip ht (turns_next ⟨rfl, Grammar.left_nil hg₁⟩)) fun _ =>
    .ite (fun _ => ?_) fun _ => ?_
  · refine .bind drops_setHandles fun _ g₂ h₂ => turns_later (turns_next ⟨rfl, ?_⟩)
    exact congrArg (fun as => [Awaits.root, .close] ++ as) (Grammar.left_nil (h₂.stack.trans hg₁))
  · refine .bind drops_setHandles fun _ g₂ h₂ => after_peek fun mark ts' ht' =>
      .ite (fun _ => ?_) fun _ e g' h => ?_
    · exact .bind (p := fun _ _ => False) (.throw _) fun _ _ h => h.elim
    · cases h
      exact ⟨rfl,
        congrArg (fun as => [Awaits.root, .close] ++ as) (Grammar.left_nil (h₂.stack.trans hg₁))⟩

theorem turns_stream (hg : g.stack = []) : Turns [] stream g :=
  after_peek fun _ _ ht => after_skip ht (turns_next ⟨rfl, Grammar.left_nil hg⟩)

/-! ## Steps -/

theorem turns_step {g' : Grammar} (hb : g.Balanced) (h : step g = .ok (some event, g')) :
    event.kind.role.Turns g.awaits g'.awaits := by
  have hsome : ∀ {x : Parse Event}, Turns g.awaits x g → (some <$> x) g = .ok (some event, g') →
      event.kind.role.Turns g.awaits g'.awaits := by
    intro x hx h
    obtain ⟨e', h, he⟩ := ok_of_map h
    cases he
    exact hx _ _ h
  have houter : g.expect.isInner = false → g.stack = [] :=
    fun he => by simpa [Grammar.Balanced, he] using hb
  unfold step at h
  rw [get_bind] at h
  unfold Grammar.awaits at hsome ⊢
  cases he : g.expect <;>
    simp only [he, Expect.awaits, List.nil_append, List.cons_append] at h hsome houter ⊢
  case nothing => cases h
  case stream =>
      have hs := houter rfl
      rw [Grammar.left_nil hs] at hsome ⊢
      exact hsome (turns_stream hs) h
  case document bare =>
      have hs := houter rfl
      rw [Grammar.left_nil hs] at hsome ⊢
      exact hsome (turns_document hs) h
  case documentEnd =>
      have hs := houter rfl
      rw [Grammar.left_nil hs] at hsome ⊢
      exact hsome (turns_documentEnd hs) h
  case content => exact hsome turns_content h
  case blockNode => exact hsome (turns_node (.root _)) h
  case blockEntry began => exact hsome (turns_blockEntry began) h
  case indentlessEntry => exact hsome turns_indentlessEntry h
  case blockKey began => exact hsome (turns_blockKey began) h
  case blockValue began => exact hsome (turns_blockValue began) h
  case flowEntry first began => exact hsome (turns_flowEntry first began) h
  case pairKey began => exact hsome (turns_pairKey began) h
  case pairValue began => exact hsome (turns_pairValue began) h
  case pairEnd began => exact hsome (turns_pairEnd began) h
  case flowKey first began => exact hsome (turns_flowKey first began) h
  case flowValue began => exact hsome (turns_flowValue began) h
  case flowNoValue began => exact hsome (turns_flowNoValue began) h

end Parse

/-! ## Events of a text -/

/-- Events, oldest first, after which something is awaited. -/
def Nested (events : List Event) (as : List Awaits) : Prop :=
  Role.Runs (events.map (·.kind.role)) [] as

theorem Grammar.nested_run : (fuel : Nat) → {g : Grammar} → {acc : List Event} → g.Balanced →
    Nested acc.reverse g.awaits → ∃ as, Nested (run fuel g acc).1.reverse as
  | 0, g, _, _, hacc => ⟨_, hacc⟩
  | fuel + 1, g, acc, hb, hacc => by
      rw [run]
      split
      · exact ⟨_, hacc⟩
      · exact ⟨_, hacc⟩
      · rename_i e g' hs
        refine nested_run fuel ((Parse.moves_step hs).balanced hb) ?_
        unfold Nested at hacc ⊢
        rw [List.reverse_cons, List.map_append]
        exact hacc.append ⟨_, Parse.turns_step hb hs, rfl⟩

theorem Events.nested_ofTokens (t : Tokens) : ∃ as, Nested (Events.ofTokens t).list as := by
  have hrun :
      ∃ as, Nested (Grammar.run (4 * t.list.length + 8) (.ofTokens t.list) []).1.reverse as :=
    Grammar.nested_run _ rfl rfl
  unfold Events.ofTokens
  split <;> rename_i hr <;> rw [hr] at hrun <;> exact hrun

end BootConfig.Yaml
