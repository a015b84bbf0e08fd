import BootConfig.Proofs.Along
import BootConfig.Yaml.Event.Stream

/-!
# The grammar ends

Each step of the grammar takes a token or, a bounded number of times in between, goes on to what may
follow without one. It has nothing left to expect only when it has taken the end of the stream.
-/

namespace BootConfig.Yaml

open Steps

/-! ## Expectations -/

namespace Expect

/-- Expectations inside a document. -/
def isInner : Expect → Bool
  | .stream | .document _ | .documentEnd | .nothing => false
  | _ => true

/-- Expectations behind the start of a document: what stands in it, and its end. -/
def Begun (e : Expect) : Prop := e.isInner = true ∨ e = .documentEnd

theorem Begun.ne_stream {e : Expect} (h : e.Begun) : e ≠ .stream := by
  rintro rfl
  rcases h with h | h <;> cases h

theorem Begun.ne_nothing {e : Expect} (h : e.Begun) : e ≠ .nothing := by
  rintro rfl
  rcases h with h | h <;> cases h

/-- The number of steps that may follow before a token is taken. -/
def weight : Expect → Nat
  | .document true | .pairValue _ => 2
  | .content | .documentEnd | .indentlessEntry | .blockValue _ | .pairEnd _ | .flowValue _
  | .flowNoValue _ => 1
  | _ => 0

/-- The number of such steps for all that is expected in turn. -/
def weights : List Expect → Nat
  | [] => 0
  | e :: es => e.weight + weights es

theorem weights_append (es es' : List Expect) : weights (es ++ es') = weights es + weights es' := by
  induction es with
  | nil => exact (Nat.zero_add _).symm
  | cons e es ih => rw [List.cons_append, weights, weights, ih, Nat.add_assoc]

end Expect

namespace Grammar

/-- A bound for the steps to come once what is expected now is complete. -/
def load (g : Grammar) : Nat := 4 * g.tokens.length + Expect.weights g.stack

/-- A bound for the steps to come. -/
def weight (g : Grammar) : Nat := g.load + g.expect.weight

/-- Behind all that is left for later inside a document stands the document's end. -/
def Held (g : Grammar) : Prop :=
  ∃ inner, g.stack = inner ++ [.documentEnd] ∧ ∀ e ∈ inner, e.isInner = true

def Balanced (g : Grammar) : Prop := if g.expect.isInner then g.Held else g.stack = []

/-- A node or a part of one has been begun or completed, at a cost. -/
structure Goes (cost : Int) (g : Grammar) (e : Event) (g' : Grammar) : Prop where
  weight : (g'.weight : Int) ≤ g.load + cost
  balanced : g.Held → g'.Balanced ∧ g'.expect.Begun
  tokens : ∀ t ∈ g'.tokens, t ∈ g.tokens
  event : e.kind ≠ .streamEnd

end Grammar

namespace Parse

open Grammar (Goes)

theorem after_peek {α : Type} {g : Grammar} {f : Token → Parse α} {p : α → Grammar → Prop}
    (h : ∀ t ts, g.tokens = t :: ts → After (f t) g p) : After (peek >>= f) g p := by
  refine .bind (p := fun t g' => g' = g ∧ ∃ ts, g.tokens = t :: ts) (fun t g' hp =>
    ?_) fun t g' hp => ?_
  · unfold peek at hp
    rw [get_bind] at hp
    cases ht : g.tokens with
    | nil => simp only [ht] at hp; cases hp
    | cons t' ts => simp only [ht] at hp; cases hp; exact ⟨rfl, ts, rfl⟩
  · obtain ⟨rfl, ts, ht⟩ := hp
    exact h t ts ht

theorem after_skip {α : Type} {g : Grammar} {t : Token} {ts : List Token} {f : Unit → Parse α}
    {p : α → Grammar → Prop} (ht : g.tokens = t :: ts)
    (h : After (f ()) { g with tokens := ts } p) : After (skip >>= f) g p := by
  intro a g' hs
  change f () { g with tokens := g.tokens.tail } = _ at hs
  rw [ht] at hs
  exact h a g' hs

/-- A reader of an event inside a document. -/
abbrev Advances (cost : Int) (x : Parse Event) (g : Grammar) : Prop := After x g (Goes cost g)

section Advances

variable {α : Type} {cost cost' : Int} {x : Parse Event} {g : Grammar} {t : Token} {ts : List Token}

theorem advances_mono (h : Advances cost x g) (hle : cost ≤ cost') : Advances cost' x g :=
  h.imp fun _ _ h => ⟨by have := h.weight; omega, h.balanced, h.tokens, h.event⟩

theorem advances_fail {cause : Cause} {place : Mark} {context : Option (Activity × Mark)} :
    Advances cost (fail cause place context) g :=
  .throw _

theorem advances_skip {f : Unit → Parse Event} (ht : g.tokens = t :: ts)
    (h : Advances (cost + 4) (f ()) { g with tokens := ts }) :
    Advances cost (skip >>= f) g := after_skip ht (h.imp fun e g' hg => by
  obtain ⟨hw, hb, htok, he⟩ := hg
  refine ⟨?_, hb, fun t' ht' => ?_, he⟩
  · simp only [Grammar.load, ht, List.length_cons] at hw ⊢
    omega
  · rw [ht]
    exact List.mem_cons_of_mem _ (htok t' ht'))

theorem advances_later {f : Unit → Parse Event} {e : Expect} (hi : e.isInner = true)
    (h : Advances (cost - e.weight) (f ()) { g with stack := e :: g.stack }) :
      Advances cost (later e >>= f) g := by
  intro e' g' hs
  obtain ⟨hw, hb, htok, he⟩ := h e' g' hs
  refine ⟨?_, fun ⟨inner, hstack, hin⟩ =>
    hb ⟨e :: inner, by rw [hstack]; rfl, List.forall_mem_cons.mpr ⟨hi, hin⟩⟩, htok, he⟩
  simp only [Grammar.load, Expect.weights] at hw ⊢
  omega

theorem advances_next {event : Event} {e : Expect} (hi : e.isInner = true)
    (hw : (e.weight : Int) ≤ cost) (he : event.kind ≠ .streamEnd) :
    Advances cost (next e >>= fun _ => pure event) g := by
  intro e' g' hs
  cases hs
  refine ⟨?_, fun h => ⟨?_, Or.inl hi⟩, fun _ h => h, he⟩
  · simp only [Grammar.weight, Grammar.load]
    omega
  · simp only [Grammar.Balanced, hi, if_true]
    exact h

theorem advances_complete {event : Event} (hw : 0 ≤ cost) (he : event.kind ≠ .streamEnd) :
    Advances cost (complete >>= fun _ => pure event) g := by
  intro e' g' hs
  unfold Parse.complete at hs
  rw [modify_bind] at hs
  cases hstack : g.stack with
  | nil =>
      simp only [hstack] at hs
      cases hs
      refine ⟨?_, fun ⟨inner, h, _⟩ => absurd h (by simp [hstack]), fun _ h => h, he⟩
      simp only [Grammar.weight, Grammar.load, Expect.weight, hstack]
      omega
  | cons e es =>
      simp only [hstack] at hs
      cases hs
      refine ⟨?_, fun ⟨inner, h, hin⟩ => ?_, fun _ h => h, he⟩
      · simp only [Grammar.weight, Grammar.load, hstack, Expect.weights]
        omega
      · rw [hstack] at h
        cases inner with
        | nil =>
            obtain ⟨rfl, rfl⟩ := List.cons.inj h
            exact ⟨rfl, Or.inr rfl⟩
        | cons e' inner =>
            obtain ⟨rfl, rfl⟩ := List.cons.inj h
            obtain ⟨hi, hin⟩ := List.forall_mem_cons.mp hin
            refine ⟨?_, Or.inl hi⟩
            simp only [Grammar.Balanced, hi, if_true]
            exact ⟨inner, rfl, hin⟩

end Advances

/-! ## Nodes -/

section Nodes

variable {cost : Int} {g : Grammar} {t : Token} {ts : List Token}

/-- Tokens are taken and nothing else changes. -/
def Consumes (n : Nat) (g g' : Grammar) : Prop :=
  ∃ ts, g' = { g with tokens := ts } ∧ (∀ t ∈ ts, t ∈ g.tokens) ∧ ts.length + n ≤ g.tokens.length

theorem Consumes.refl (g : Grammar) : Consumes 0 g g := ⟨g.tokens, rfl, fun _ h => h, Nat.le_refl _⟩

theorem Consumes.trans {m n : Nat} {g g' g'' : Grammar} (h : Consumes m g g')
    (h' : Consumes n g' g'') : Consumes (m + n) g g'' := by
  obtain ⟨ts, rfl, hm, hl⟩ := h
  obtain ⟨ts', rfl, hm', hl'⟩ := h'
  exact ⟨ts', rfl, fun t ht => hm t (hm' t ht), by simp only at hl'; omega⟩

theorem Consumes.less {m n : Nat} {g' : Grammar} (h : Consumes n g g') (hm : m ≤ n) :
    Consumes m g g' := by
  obtain ⟨ts, rfl, hsub, hl⟩ := h
  exact ⟨ts, rfl, hsub, by omega⟩

theorem advances_consumed {n : Nat} {x : Parse Event} {g g' : Grammar} (hg : Consumes n g g')
    (h : Advances (cost + 4 * n) x g') : After x g' (Grammar.Goes cost g) := by
  obtain ⟨ts, rfl, hm, hl⟩ := hg
  refine h.imp fun e g' ⟨hw, hb, htok, he⟩ => ⟨?_, hb, fun t ht => hm t (htok t ht), he⟩
  simp only [Grammar.load] at hw ⊢
  omega

theorem consumes_one {t : Token} {ts : List Token} (ht : g.tokens = t :: ts) :
    Consumes 1 g { g with tokens := ts } :=
  ⟨ts, rfl, fun t' h => by rw [ht]; exact List.mem_cons_of_mem _ h, by rw [ht]; exact Nat.le_refl _⟩

theorem consumes_anchor? : After anchor? g fun r g' => Consumes (if r.isSome then 1 else 0) g g' :=
  after_peek fun t ts ht => by
    split
    · exact after_skip ht (.pure (consumes_one ht))
    · exact .pure (.refl g)

theorem consumes_tag? : After tag? g fun r g' => Consumes (if r.isSome then 1 else 0) g g' :=
  after_peek fun t ts ht => by
    split
    · exact after_skip ht (.pure (consumes_one ht))
    · exact .pure (.refl g)

theorem consumes_written :
    After written g fun w g' =>
    Consumes (if w.anchor.isSome || w.tag.isSome then 1 else 0) g g' := by
  refine after_peek fun here _ _ => .bind consumes_anchor? fun a g₁ h₁ => ?_
  cases a with
  | some a =>
      refine .bind consumes_tag? fun t g₂ h₂ => ?_
      cases t with
      | some t => exact .pure ((h₁.trans h₂).less (by simp))
      | none => exact .pure ((h₁.trans h₂).less (by simp))
  | none =>
      refine .bind consumes_tag? fun t g₂ h₂ => ?_
      cases t with
      | some t =>
          refine .bind consumes_anchor? fun a g₃ h₃ => ?_
          cases a with
          | some a => exact .pure (((h₁.trans h₂).trans h₃).less (by simp))
          | none => exact .pure (((h₁.trans h₂).trans h₃).less (by simp))
      | none => exact .pure ((h₁.trans h₂).less (by simp))

theorem after_resolveTag {handle : String} {suffix : TagText} {nodeMark tagMark : Mark} :
    After (resolveTag handle suffix nodeMark tagMark) g fun _ g' => g' = g :=
  .ite (fun _ => .pure rfl) fun _ =>
    .bind (p := fun _ g' => g' = g) (fun _ _ h => by cases h; rfl) fun g₁ g' h => by
    split
    · exact .pure h
    · exact .throw _

theorem after_properties {w : Written} : After (properties w) g fun _ g' => g' = g := by
  unfold properties
  cases w.tag with
  | some tag => exact .bind after_resolveTag fun _ _ h => .pure h
  | none => exact .pure rfl

theorem advances_contentAfter {inBlock indentless : Bool} {w : Written} {p : Properties}
    (hi : indentless = true → 1 ≤ cost)
    (hw : (w.anchor.isSome || w.tag.isSome) = true → 0 ≤ cost) (hc : -4 ≤ cost) :
    Advances cost (contentAfter inBlock indentless w p) g := by
  have hmissing : ∀ t : Token, Advances cost (contentAfter.missing inBlock w p t) g := fun t =>
    .ite (fun h => advances_complete (hw h) (by simp)) fun _ => advances_fail
  refine after_peek fun t ts ht => ?_
  have hopened : ∀ {e : Expect} {kind : Event.Kind}, e.isInner = true → e.weight = 0 →
      kind ≠ .streamEnd → Advances cost (contentAfter.opened w t e kind) g :=
        fun he hw hk => advances_skip ht (advances_next he (by omega) hk)
  split
  · exact .ite (fun h => advances_next rfl (hi h) (by simp)) fun _ => hmissing t
  · exact advances_skip ht (advances_complete (by omega) (by simp))
  · exact hopened rfl rfl (by simp)
  · exact hopened rfl rfl (by simp)
  · exact .ite (fun _ => hopened rfl rfl (by simp)) fun _ => hmissing t
  · exact .ite (fun _ => hopened rfl rfl (by simp)) fun _ => hmissing t
  · exact hmissing t

theorem advances_node {inBlock indentless : Bool} (hi : indentless = true → 1 ≤ cost)
    (hc : -4 ≤ cost) : Advances cost (node inBlock indentless) g := by
  refine after_peek fun t ts ht => ?_
  split
  · exact advances_skip ht (advances_complete (by omega) (by simp))
  · refine .bind consumes_written fun w g₁ h₁ => .bind after_properties fun p g₂ h₂ => ?_
    subst h₂
    refine advances_consumed h₁ (advances_contentAfter (fun h => ?_) (fun h => ?_) ?_)
    · have := hi h
      omega
    · rw [if_pos h]
      omega
    · omega

theorem advances_noNode {place : Mark} {e : Expect} (he : e.isInner = true)
    (hc : (e.weight : Int) ≤ cost) :
    Advances cost (noNode place e) g := advances_next he hc (by simp [Event.missing])

/-! ## Collections -/

theorem advances_blockEntry (began : Mark) : Advances (-1) (blockEntry began) g :=
  after_peek fun t ts ht => by
  split
  · refine advances_skip ht (after_peek fun t' ts' ht' => ?_)
    split
    · exact advances_noNode rfl (by simp [Expect.weight])
    · exact advances_noNode rfl (by simp [Expect.weight])
    · exact advances_later rfl (advances_node (by simp) (by simp [Expect.weight]))
  · exact advances_skip ht (advances_complete (by omega) (by simp))
  · exact advances_fail

theorem advances_indentlessEntry : Advances 0 indentlessEntry g := after_peek fun t ts ht => by
  split
  · refine advances_skip ht (after_peek fun t' ts' ht' => ?_)
    have hnone : ∀ place g, Advances (0 + 4) (noNode place .indentlessEntry) g :=
      fun _ _ => advances_noNode rfl (by simp [Expect.weight])
    split
    · exact hnone _ _
    · exact hnone _ _
    · exact hnone _ _
    · exact hnone _ _
    · exact advances_later rfl (advances_node (by simp) (by simp [Expect.weight]))
  · exact advances_complete (by omega) (by simp)

theorem advances_blockPart (indicatorEnd : Mark) {e : Expect} (he : e.isInner = true)
    (hc : (e.weight : Int) + 1 ≤ cost) :
    Advances cost (blockPart indicatorEnd e) g := after_peek fun t ts ht => by
  have hnone : Advances cost (noNode indicatorEnd e) g := advances_noNode he (by omega)
  split
  · exact hnone
  · exact hnone
  · exact hnone
  · exact advances_later he (advances_node (by omega) (by omega))

theorem advances_blockKey (began : Mark) : Advances (-1) (blockKey began) g :=
  after_peek fun t ts ht => by
  split
  · exact advances_skip ht (advances_blockPart _ rfl (by simp [Expect.weight]))
  · exact advances_skip ht (advances_complete (by omega) (by simp))
  · exact advances_fail

theorem advances_blockValue (began : Mark) : Advances 0 (blockValue began) g :=
  after_peek fun t ts ht => by
  split
  · exact advances_skip ht (advances_blockPart _ rfl (by simp [Expect.weight]))
  · exact advances_noNode rfl (by simp [Expect.weight])

theorem advances_closed {kind : Event.Kind} (hk : kind ≠ .streamEnd) (hc : -4 ≤ cost) :
    Advances cost (closed kind) g :=
  after_peek fun _ _ ht => advances_skip ht (advances_complete (by omega) hk)

/-- The comma in front of all entries but the first. -/
theorem advances_separated {first : Bool} {cause : Cause} {activity : Activity} {began : Mark}
    {f : Unit → Parse Event} (hf : ∀ u g, Advances cost (f u) g) :
    Advances cost (if !first then
      peek >>= fun t =>
        if t.kind ≠ .flowEntry then
          (fail cause t.start (some (activity, began)) : Parse Unit) >>= fun _ => skip >>= f
        else skip >>= f
      else f ()) g :=
  .ite (fun _ => after_peek fun _ _ ht =>
    .ite (fun _ => .bind (p := fun _ _ => False) (.throw _) fun _ _ h => h.elim)
    fun _ => advances_skip ht (advances_mono (hf _ _) (by omega))) fun _ => hf _ _

theorem advances_flowEntry (first : Bool) (began : Mark) :
    Advances (-1) (flowEntry first began) g := after_peek fun t ts ht => by
  refine .ite (fun _ => advances_closed (by simp) (by omega)) fun _ => advances_separated fun _ g =>
    after_peek fun t ts ht => ?_
  split
  · exact advances_skip ht (advances_next rfl (by simp [Expect.weight]) (by simp))
  · exact advances_closed (by simp) (by omega)
  · exact advances_later rfl (advances_node (by simp) (by simp [Expect.weight]))

theorem advances_pairKey (began : Mark) : Advances (-1) (pairKey began) g :=
  after_peek fun t ts ht => by
  have hnone : Advances (-1) (skip >>= fun _ => noNode t.stop (.pairValue began)) g :=
    advances_skip ht (advances_noNode rfl (by simp [Expect.weight]))
  split
  · exact hnone
  · exact hnone
  · exact hnone
  · exact advances_later rfl (advances_node (by simp) (by simp [Expect.weight]))

theorem advances_pairValue (began : Mark) : Advances 1 (pairValue began) g :=
  after_peek fun t ts ht => by
  split
  · refine advances_skip ht (after_peek fun t' ts' ht' => ?_)
    split
    · exact advances_noNode rfl (by simp [Expect.weight])
    · exact advances_noNode rfl (by simp [Expect.weight])
    · exact advances_later rfl (advances_node (by simp) (by simp [Expect.weight]))
  · exact advances_noNode rfl (by simp [Expect.weight])

theorem advances_pairEnd (began : Mark) : Advances 0 (pairEnd began) g :=
  after_peek fun _ _ _ => advances_next rfl (by simp [Expect.weight]) (by simp)

theorem advances_flowKey (first : Bool) (began : Mark) : Advances (-1) (flowKey first began) g :=
  after_peek fun t ts ht => by
  refine .ite (fun _ => advances_closed (by simp) (by omega)) fun _ => advances_separated fun _ g =>
    after_peek fun t ts ht => ?_
  split
  · refine advances_skip ht (after_peek fun t' ts' ht' => ?_)
    have hnone : ∀ g, Advances (-1 + 4) (noNode t'.start (.flowValue began)) g :=
      fun _ => advances_noNode rfl (by simp [Expect.weight])
    split
    · exact hnone _
    · exact hnone _
    · exact hnone _
    · exact advances_later rfl (advances_node (by simp) (by simp [Expect.weight]))
  · exact advances_closed (by simp) (by omega)
  · exact advances_later rfl (advances_node (by simp) (by simp [Expect.weight]))

theorem advances_flowValue (began : Mark) : Advances 0 (flowValue began) g :=
  after_peek fun t ts ht => by
  split
  · refine advances_skip ht (after_peek fun t' ts' ht' => ?_)
    split
    · exact advances_noNode rfl (by simp [Expect.weight])
    · exact advances_noNode rfl (by simp [Expect.weight])
    · exact advances_later rfl (advances_node (by simp) (by simp [Expect.weight]))
  · exact advances_noNode rfl (by simp [Expect.weight])

theorem advances_flowNoValue (began : Mark) : Advances 0 (flowNoValue began) g :=
  after_peek fun _ _ _ => advances_noNode rfl (by simp [Expect.weight])

/-! ## Steps -/

theorem advances_content : Advances 0 content g := after_peek fun t ts ht =>
  .ite (fun _ => advances_complete (by omega) (by simp [Event.missing])) fun _ =>
    advances_node (by simp) (by omega)

end Nodes

end Parse

namespace Grammar

/-- What one step does: the bound falls, the stream does not begin again, and only its end leaves
nothing to expect. -/
structure Moves (g : Grammar) (e : Event) (g' : Grammar) : Prop where
  weight : g'.weight < g.weight
  balanced : g.Balanced → g'.Balanced
  tokens : ∀ t ∈ g'.tokens, t ∈ g.tokens
  begun : g.Balanced → g'.expect ≠ .stream
  ending : e.kind = .streamEnd → g'.expect = .nothing
  ended : g.Balanced → g'.expect = .nothing →
    ∃ t ∈ g.tokens, t.kind = .streamEnd ∧ e = ⟨.streamEnd, t.start, t.stop⟩

theorem Goes.moves {cost : Int} {g g' : Grammar} {e : Event} (h : Goes cost g e g')
    (hi : g.expect.isInner = true) (hc : cost < g.expect.weight) : Moves g e g' where
  weight := by
    have := h.weight
    unfold Grammar.weight
    unfold Grammar.weight at this
    omega
  balanced hb := (h.balanced (by simpa [Balanced, hi] using hb)).1
  tokens := h.tokens
  begun hb := (h.balanced (by simpa [Balanced, hi] using hb)).2.ne_stream
  ending he := absurd he h.event
  ended hb hn := absurd hn (h.balanced (by simpa [Balanced, hi] using hb)).2.ne_nothing

end Grammar

namespace Parse

variable {g : Grammar}

open Grammar (Moves)

/-- Directives and end marks of documents are gone, and what is expected is the same. -/
structure Drops (g g' : Grammar) : Prop where
  passed : ∃ dropped, g.tokens = dropped ++ g'.tokens ∧ ∀ t ∈ dropped, isDirective t.kind = true ∨
    t.kind = .documentEnd
  expect : g'.expect = g.expect
  stack : g'.stack = g.stack

theorem Drops.refl (g : Grammar) : Drops g g :=
  ⟨⟨[], rfl, fun _ h => absurd h List.not_mem_nil⟩, rfl, rfl⟩

theorem Drops.trans {g g' g'' : Grammar} (h : Drops g g') (h' : Drops g' g'') : Drops g g'' := by
  obtain ⟨dropped, ht, hd⟩ := h.passed
  obtain ⟨dropped', ht', hd'⟩ := h'.passed
  refine ⟨⟨dropped ++ dropped', by rw [ht, ht', List.append_assoc], fun t hm => ?_⟩,
    h'.expect.trans h.expect, h'.stack.trans h.stack⟩
  exact (List.mem_append.mp hm).elim (hd t) (hd' t)

theorem Drops.tokens {g' : Grammar} (h : Drops g g') : g'.tokens.Sublist g.tokens := by
  obtain ⟨dropped, ht, -⟩ := h.passed
  rw [ht]
  exact List.sublist_append_right _ _

theorem directives_passed {ts ts' : List Token} {versioned : Bool} {handles handles' : Handles}
    (h : directives ts versioned handles = .ok (handles', ts')) :
    ∃ dropped, ts = dropped ++ ts' ∧ ∀ t ∈ dropped, isDirective t.kind = true := by
  induction ts generalizing versioned handles with
  | nil => cases h
  | cons t ts ih =>
      have hcons : ∀ {versioned handles}, isDirective t.kind = true →
          directives ts versioned handles = .ok (handles', ts') →
          ∃ dropped, t :: ts = dropped ++ ts' ∧ ∀ t ∈ dropped, isDirective t.kind = true :=
            fun hk h => by
        obtain ⟨dropped, rfl, hd⟩ := ih h
        exact ⟨t :: dropped, rfl, List.forall_mem_cons.mpr ⟨hk, hd⟩⟩
      unfold directives at h
      split at h
      · rename_i hk
        split at h
        · cases h
        · split at h
          · cases h
          · exact hcons (by rw [hk]; rfl) h
      · rename_i hk
        split at h
        · cases h
        · exact hcons (by rw [hk]; rfl) h
      · cases h
        exact ⟨[], rfl, fun _ h => absurd h List.not_mem_nil⟩

theorem drops_setHandles : After setHandles g fun _ g' => Drops g g' := by
  intro _ g' h
  unfold setHandles at h
  rw [get_bind] at h
  cases hd : directives g.tokens false [] with
  | error p =>
      rw [hd] at h
      cases h
  | ok r =>
      obtain ⟨handles, tokens⟩ := r
      rw [hd] at h
      cases h
      obtain ⟨dropped, ht, hk⟩ := directives_passed hd
      exact ⟨⟨dropped, ht, fun t hm => Or.inl (hk t hm)⟩, rfl, rfl⟩

theorem drops_skipDocumentEnds : After skipDocumentEnds g fun _ g' => Drops g g' := fun _ _ h => by
  cases h
  refine ⟨⟨g.tokens.takeWhile (·.kind = .documentEnd), List.takeWhile_append_dropWhile.symm,
    fun t hm => Or.inr ?_⟩, rfl, rfl⟩
  exact decide_eq_true_iff.mp (List.all_eq_true.mp List.all_takeWhile t hm)

/-- A step outside documents that does not end the stream: into a document, whose end is left for
later, or on in front of one. -/
theorem moves_outer {g' : Grammar} {e : Event} (es : List Expect) (ho : g.expect.isInner = false)
    (ht : g'.tokens.Sublist g.tokens) (hs : g'.stack = es ++ g.stack)
    (hw : 4 * g'.tokens.length + Expect.weights es + g'.expect.weight < 4 * g.tokens.length +
      g.expect.weight)
    (hes : if g'.expect.isInner then es = [.documentEnd] else es = []) (hn : g'.expect ≠ .nothing)
    (hb : g'.expect ≠ .stream)
    (he : e.kind ≠ .streamEnd) :
    Moves g e g' where
  weight := by
    simp only [Grammar.weight, Grammar.load, hs, Expect.weights_append]
    omega
  balanced hb := by
    have hb : g.stack = [] := by simpa [Grammar.Balanced, ho] using hb
    rw [hb, List.append_nil] at hs
    unfold Grammar.Balanced
    split <;> rename_i hi <;> simp only [hi, if_true, Bool.false_eq_true, if_false] at hes
    · exact ⟨[], by rw [hs, hes]; rfl, fun _ h => absurd h List.not_mem_nil⟩
    · rw [hs, hes]
  tokens _ h := ht.subset h
  begun _ := hb
  ending h := absurd h he
  ended _ h := absurd h hn

theorem moves_stream (he : g.expect = .stream) : After stream g (Moves g) :=
  after_peek fun t ts ht => after_skip ht fun e g' h => by
  cases h
  refine moves_outer [] (by rw [he]; rfl) (by rw [ht]; exact List.sublist_cons_self _ _) rfl ?_ rfl
    (by simp) (by simp) (by simp)
  simp only [ht, he, Expect.weight, List.length_cons, Expect.weights]
  omega

theorem moves_documentEnd (he : g.expect = .documentEnd) : After documentEnd g (Moves g) :=
  after_peek fun t ts ht => by
  have hlast : ∀ g' : Grammar, g'.tokens.Sublist g.tokens → g'.stack = g.stack →
      g'.expect = .document false → ∀ place, Moves g ⟨.documentEnd, t.start, place⟩ g' := by
    intro g' hsub hs hx place
    have hl := hsub.length_le
    refine moves_outer [] (by rw [he]; rfl) hsub hs ?_ (by rw [hx]; rfl) (by simp [hx])
      (by simp [hx]) (by simp)
    simp only [hx, he, Expect.weight, Expect.weights]
    omega
  intro e g' h
  obtain ⟨_, _, h₁, h⟩ := ok_of_bind h
  cases h₁
  obtain ⟨_, _, h₂, h⟩ := ok_of_bind h
  cases h₂
  split at h
  · obtain ⟨_, _, h₃, h⟩ := ok_of_bind h
    cases h₃
    cases h
    exact hlast { g with tokens := g.tokens.tail, expect := .document false, handles := [] }
      (List.tail_sublist _) rfl rfl _
  · cases h
    exact hlast { g with expect := .document false, handles := [] } (List.Sublist.refl _) rfl rfl _

/-- The start of a document opens what stands in it. -/
theorem moves_into {bare : Bool} (he : g.expect = .document bare) {g₁ g' : Grammar} (h : Drops g g₁)
    {place stop : Mark} (ht : g'.tokens.Sublist g₁.tokens)
    (hs : g'.stack = .documentEnd :: g₁.stack) (hi : g'.expect.isInner = true)
    (hw : 4 * g'.tokens.length + 1 + g'.expect.weight < 4 * g₁.tokens.length + g.expect.weight) :
    Moves g ⟨.documentStart, place, stop⟩ g' := by
  have hl := h.tokens.length_le
  have hb : g'.expect.Begun := Or.inl hi
  refine moves_outer [.documentEnd] (by rw [he]; rfl) (ht.trans h.tokens)
    (by rw [hs, h.stack]; rfl) ?_ (by simp [hi]) hb.ne_nothing hb.ne_stream (by simp)
  have hw₁ : Expect.weights [.documentEnd] = 1 := rfl
  omega

theorem moves_document {bare : Bool} (he : g.expect = .document bare) :
    After (document bare) g (Moves g) := by
  unfold document
  refine .andThen (p := Drops g) drops_skipDocumentEnds (.refl g) fun g₁ h₁ =>
    after_peek fun t ts ht => ?_
  refine .ite (fun hend => after_skip ht fun e g' h => ?_) fun _ =>
    .ite (fun hbare => ?_) fun _ => ?_
  · cases h
    have hl := h₁.tokens.length_le
    have hm : t ∈ g.tokens := h₁.tokens.subset (by rw [ht]; simp)
    refine ⟨?_, fun hb => ?_, fun t' ht' =>
      h₁.tokens.subset (by rw [ht]; exact List.mem_cons_of_mem _ ht'), fun _ => by simp,
      fun _ => rfl, fun _ _ => ⟨t, hm, hend, rfl⟩⟩
    · simp only [Grammar.weight, Grammar.load, h₁.stack, ht, List.length_cons,
        Expect.weight] at hl ⊢
      omega
    · simpa [Grammar.Balanced, he, h₁.stack, Expect.isInner] using hb
  · refine .bind drops_setHandles fun _ g₂ h₂ e g' h => ?_
    cases h
    refine moves_into he (h₁.trans h₂) (List.Sublist.refl _) rfl rfl ?_
    simp only [Bool.and_eq_true] at hbare
    simp [he, hbare.1.1, Expect.weight]
  · refine .bind drops_setHandles fun _ g₂ h₂ => after_peek fun mark ts' ht' =>
      .ite (fun _ => ?_) fun _ e g' h => ?_
    · exact .bind (p := fun _ _ => False) (.throw _) fun _ _ h => h.elim
    · cases h
      refine moves_into he (h₁.trans h₂) (List.tail_sublist _) rfl rfl ?_
      simp only [ht', List.tail_cons, List.length_cons, Expect.weight]
      omega

theorem moves_step {e : Event} {g' : Grammar} (h : step g = .ok (some e, g')) : Moves g e g' := by
  have hsome : ∀ {x : Parse Event}, (some <$> x) g = .ok (some e, g') → x g = .ok (e, g') := by
    intro x hx
    obtain ⟨e', hx, he⟩ := ok_of_map hx
    cases he
    exact hx
  have hinner : ∀ {cost : Int} {x : Parse Event}, Advances cost x g → g.expect.isInner = true →
      cost < g.expect.weight → (some <$> x) g = .ok (some e, g') → Moves g e g' :=
        fun hx hi hc h => (hx _ _ (hsome h)).moves hi hc
  have hnode : Advances (-1) (node true false) g := advances_node (by simp) (by simp)
  unfold step at h
  rw [get_bind] at h
  cases he : g.expect <;> simp only [he, Expect.isInner, Expect.weight] at h hinner
  case nothing => cases h
  case stream => exact moves_stream he _ _ (hsome h)
  case document bare => exact moves_document he _ _ (hsome h)
  case documentEnd => exact moves_documentEnd he _ _ (hsome h)
  case content => exact hinner advances_content trivial (by decide) h
  case blockNode => exact hinner hnode trivial (by decide) h
  case blockEntry began => exact hinner (advances_blockEntry began) trivial (by decide) h
  case indentlessEntry => exact hinner advances_indentlessEntry trivial (by decide) h
  case blockKey began => exact hinner (advances_blockKey began) trivial (by decide) h
  case blockValue began => exact hinner (advances_blockValue began) trivial (by decide) h
  case flowEntry first began => exact hinner (advances_flowEntry first began) trivial (by decide) h
  case pairKey began => exact hinner (advances_pairKey began) trivial (by decide) h
  case pairValue began => exact hinner (advances_pairValue began) trivial (by decide) h
  case pairEnd began => exact hinner (advances_pairEnd began) trivial (by decide) h
  case flowKey first began => exact hinner (advances_flowKey first began) trivial (by decide) h
  case flowValue began => exact hinner (advances_flowValue began) trivial (by decide) h
  case flowNoValue began => exact hinner (advances_flowNoValue began) trivial (by decide) h

end Parse

/-! ## Runs -/

namespace Grammar

theorem step_nothing {g : Grammar} (h : g.expect = .nothing) : Parse.step g = .ok (none, g) := by
  unfold Parse.step
  rw [get_bind]
  simp only [h]
  rfl

theorem nothing_of_step {g g' : Grammar} (h : Parse.step g = .ok (none, g')) :
    g.expect = .nothing := by
  unfold Parse.step at h
  rw [get_bind] at h
  cases he : g.expect <;> simp only [he] at h
  case nothing => rfl
  all_goals
    obtain ⟨_, _, hsome⟩ := ok_of_map h
    cases hsome

/-- What a run is at, among the tokens it began with. -/
structure Running (tokens : List Token) (g : Grammar) (events : List Event) : Prop where
  balanced : g.Balanced
  within : ∀ t ∈ g.tokens, t ∈ tokens
  ended : g.expect = .nothing → ∃ t ∈ tokens, t.kind = .streamEnd
  ending : ∀ e ∈ events, e.kind = .streamEnd → g.expect = .nothing

theorem Running.step {tokens : List Token} {g g' : Grammar} {e : Event} {events : List Event}
    (h : Running tokens g events)
    (hn : g.expect ≠ .nothing) (hm : Moves g e g') : Running tokens g' (e :: events) where
  balanced := hm.balanced h.balanced
  within t ht := h.within t (hm.tokens t ht)
  ended hg := by
    obtain ⟨t, ht, hk, _⟩ := hm.ended h.balanced hg
    exact ⟨t, h.within t ht, hk⟩
  ending e' he' hk := by
    rcases List.mem_cons.mp he' with rfl | he'
    · exact hm.ending hk
    · exact absurd (h.ending e' he' hk) hn

/-- A run that is long enough comes to the end of the stream, or to a problem in front of it. -/
theorem run_concludes {tokens : List Token} : (fuel : Nat) → {g : Grammar} → {acc : List Event} →
    Running tokens g acc → g.weight < fuel →
    ((run fuel g acc).2 = none → ∃ t ∈ tokens, t.kind = .streamEnd) ∧
      ((run fuel g acc).2 ≠ none → ∀ e ∈ (run fuel g acc).1, e.kind ≠ .streamEnd)
  | 0, _, _, _, hf => absurd hf (Nat.not_lt_zero _)
  | fuel + 1, g, acc, h, hf => by
      by_cases hn : g.expect = .nothing
      · rw [run, step_nothing hn]
        exact ⟨fun _ => h.ended hn, fun h => absurd rfl h⟩
      · rw [run]
        cases hs : Parse.step g with
        | error p => exact ⟨(fun h => by cases h), fun _ e he hk => hn (h.ending e he hk)⟩
        | ok r =>
            obtain ⟨e, g'⟩ := r
            cases e with
            | none => exact absurd (nothing_of_step hs) hn
            | some e =>
                have hm := Parse.moves_step hs
                have hw := hm.weight
                exact run_concludes fuel (h.step hn hm) (by omega)

theorem running_ofTokens (tokens : List Token) : Running tokens (ofTokens tokens) [] :=
  ⟨rfl, fun _ h => h, (fun h => by cases h), fun _ h => absurd h List.not_mem_nil⟩

end Grammar

/-- Events without a problem come from tokens without one or to their end, and a problem is met in
front of the end. -/
theorem Events.ofTokens_concludes (t : Tokens) :
    ((Events.ofTokens t).problem = none → t.problem = none ∨
      ∃ token ∈ t.list, token.kind = .streamEnd) ∧
      ((Events.ofTokens t).problem ≠ none →
        ∀ e ∈ (Events.ofTokens t).list, e.kind ≠ .streamEnd) := by
  obtain ⟨hn, hp⟩ :=
    Grammar.run_concludes (4 * t.list.length + 8) (Grammar.running_ofTokens t.list) (by
    simp [Grammar.weight, Grammar.load, Grammar.ofTokens, Expect.weight, Expect.weights])
  unfold Events.ofTokens
  generalize Grammar.run (4 * t.list.length + 8) (Grammar.ofTokens t.list) [] = r at hn hp ⊢
  obtain ⟨events, problem⟩ := r
  cases problem with
  | none => exact ⟨fun _ => Or.inr (hn rfl), fun h => absurd rfl h⟩
  | some problem =>
      have he : ∀ e ∈ events.reverse, e.kind ≠ .streamEnd :=
        fun e he => hp (by simp) e (List.mem_reverse.mp he)
      cases problem with
      | none => exact ⟨Or.inl, fun _ => he⟩
      | some p => exact ⟨(fun h => by cases h), fun _ => he⟩

end BootConfig.Yaml
