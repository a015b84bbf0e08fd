import BootConfig.Proofs.Yaml.Event.Progress
import BootConfig.Proofs.Yaml.Token.Sound

/-!
# Scalars among the events

Each scalar that the grammar finds is an empty one, or made from a scalar token that does not follow
the end of another node. A node is only expected right behind an indicator or a property, or the
start of a document.
-/

namespace BootConfig.Yaml

open Steps

/-! ## The invariant -/

/-- The last of some tokens ends a node. -/
def EndsNode (ts : List Token) : Prop := ∃ t ∈ ts.getLast?, t.kind.endsNode = true

theorem not_endsNode {ts : List Token} {t : Token} (h : t.kind.endsNode = false) :
    ¬EndsNode (ts ++ [t]) := by
  rintro ⟨x, hx, he⟩
  rw [List.getLast?_concat] at hx
  cases hx
  rw [h] at he
  cases he

/-- A scalar that is empty, or whose text is that of a scalar token. The token comes behind tokens
that end no node, and what the event begins with is a part of it, the token itself or one in
front. -/
def Event.Drawn (ts : List Token) (e : Event) : Prop :=
  ∀ properties style s, e.kind = .scalar properties style s → style = .plain ∧ s = "" ∨
    ∃ pre t post, ts = pre ++ t :: post ∧ t.kind = .scalar style s ∧ e.stop = t.stop ∧
      ¬EndsNode pre ∧ ∃ first ∈ pre ++ [t], first.kind.isPart = true ∧ e.start = first.start

theorem Event.Drawn.of_not_scalar {ts : List Token} {e : Event}
    (h : ∀ properties style s, e.kind ≠ .scalar properties style s) :
    e.Drawn ts := fun properties style s hk => absurd hk (h properties style s)

theorem Event.drawn_empty {ts : List Token} {properties : Properties} {start stop : Mark} :
    Event.Drawn ts ⟨.scalar properties .plain "", start, stop⟩ := fun _ _ _ hk => by
  cases hk
  exact Or.inl ⟨rfl, rfl⟩

/-- What is expected fits the tokens that are behind: where a node may come at once, none has
ended. -/
def Expect.Fits (done : List Token) : Expect → Prop
  | .stream => done = []
  | .content | .blockNode | .pairKey _ => ¬EndsNode done
  | .document first | .flowEntry first _ | .flowKey first _ => first = true → ¬EndsNode done
  | _ => True

namespace Grammar

/-- Some of the tokens are behind the grammar. What is left for later fits any. -/
structure At (ts done : List Token) (g : Grammar) : Prop where
  tokens : ts = done ++ g.tokens
  stack : ∀ e ∈ g.stack, ∀ done, e.Fits done

def Ready (ts : List Token) (g : Grammar) : Prop := ∃ done, g.At ts done ∧ g.expect.Fits done

end Grammar

namespace Parse

/-- A reader of an event that leaves the grammar ready. -/
abbrev Draws (ts : List Token) (x : Parse Event) (g : Grammar) : Prop :=
  After x g fun e g' => e.Drawn ts ∧ g'.Ready ts

section Draws

variable {ts done rest : List Token} {g : Grammar} {t : Token} {e : Expect} {event : Event}

theorem draws_fail {cause : Cause} {place : Mark} {context : Option (Activity × Mark)} :
    Draws ts (fail cause place context) g := .throw _

theorem at_skip (hg : g.At ts done) (ht : g.tokens = t :: rest) :
    Grammar.At ts (done ++ [t]) { g with tokens := rest } :=
  ⟨by rw [hg.tokens, ht, List.append_assoc, List.singleton_append], hg.stack⟩

theorem draws_skip {f : Unit → Parse Event} (hg : g.At ts done) (ht : g.tokens = t :: rest)
    (h : ∀ g', Grammar.At ts (done ++ [t]) g' → g'.tokens = rest → Draws ts (f ()) g') :
      Draws ts (skip >>= f) g :=
  after_skip ht (h _ (at_skip hg ht) rfl)

theorem draws_next (hg : g.At ts done) (he : e.Fits done) (hevent : event.Drawn ts) :
    Draws ts (next e >>= fun _ => pure event) g := fun _ _ h => by
  cases h
  exact ⟨hevent, done, ⟨hg.tokens, hg.stack⟩, he⟩

theorem draws_later {f : Unit → Parse Event} (hg : g.At ts done) (he : ∀ done, e.Fits done)
    (h : ∀ g', Grammar.At ts done g' → g'.tokens = g.tokens → Draws ts (f ()) g') :
      Draws ts (later e >>= f) g := fun a g' hs =>
  h { g with stack := e :: g.stack } ⟨hg.tokens, List.forall_mem_cons.mpr ⟨he, hg.stack⟩⟩
    rfl a g' hs

theorem draws_complete (hg : g.At ts done) (hevent : event.Drawn ts) :
    Draws ts (complete >>= fun _ => pure event) g := fun _ g' h => by
  unfold Parse.complete at h
  rw [modify_bind] at h
  cases hstack : g.stack with
  | nil =>
      simp only [hstack] at h
      cases h
      exact ⟨hevent, done, ⟨hg.tokens, by simp⟩, trivial⟩
  | cons e es =>
      simp only [hstack] at h
      cases h
      obtain ⟨he, hes⟩ := List.forall_mem_cons.mp (hstack ▸ hg.stack)
      exact ⟨hevent, done, ⟨hg.tokens, hes⟩, he done⟩

theorem draws_noNode {place : Mark} (hg : g.At ts done) (he : ∀ done, e.Fits done) :
    Draws ts (noNode place e) g :=
  draws_next hg (he _) Event.drawn_empty

end Draws

/-! ## Nodes -/

section Nodes

variable {ts done rest : List Token} {g : Grammar} {t : Token}

/-- The parts in front of a node are behind the grammar. What they begin with is one of them, or
whatever token comes next. -/
structure Fronted (ts : List Token) (start : Mark) (done : List Token) (g : Grammar) : Prop where
  tokens : g.At ts done
  last : ¬EndsNode done
  start : (∃ first ∈ done, first.kind.isPart = true ∧ start = first.start) ∨
    ∀ t rest, g.tokens = t :: rest → start = t.start

/-- A reader of one property, if there is one. -/
theorem after_anchor? (hg : g.At ts done) : After anchor? g fun r g' => match r with
    | some (_, t) => g'.At ts (done ++ [t]) ∧ ¬EndsNode (done ++ [t]) ∧ t.kind.isPart = true
    | none => g' = g := after_peek fun t rest ht => by
  split
  · rename_i hk
    exact after_skip ht (.pure ⟨at_skip hg ht, not_endsNode (by rw [hk]; rfl), by rw [hk]; rfl⟩)
  · exact .pure rfl

theorem after_tag? (hg : g.At ts done) : After tag? g fun r g' => match r with
    | some (_, _, t) => g'.At ts (done ++ [t]) ∧ ¬EndsNode (done ++ [t]) ∧ t.kind.isPart = true
    | none => g' = g := after_peek fun t rest ht => by
  split
  · rename_i hk
    exact after_skip ht (.pure ⟨at_skip hg ht, not_endsNode (by rw [hk]; rfl), by rw [hk]; rfl⟩)
  · exact .pure rfl

theorem after_written (hg : g.At ts done) (hd : ¬EndsNode done) :
    After written g fun w g' => ∃ done', Fronted ts w.start done' g' := by
  refine after_peek fun here rest hhere => .bind (after_anchor? hg) fun a g₁ h₁ => ?_
  cases a with
  | some a =>
      obtain ⟨hg₁, hd₁, hp⟩ := h₁
      refine .bind (after_tag? hg₁) fun t g₂ h₂ => ?_
      cases t with
      | some t => exact .pure ⟨_, h₂.1, h₂.2.1, Or.inl ⟨a.2, by simp, hp, rfl⟩⟩
      | none =>
          obtain rfl : g₂ = g₁ := h₂
          exact .pure ⟨_, hg₁, hd₁, Or.inl ⟨a.2, by simp, hp, rfl⟩⟩
  | none =>
      obtain rfl : g₁ = g := h₁
      refine .bind (after_tag? hg) fun t g₂ h₂ => ?_
      cases t with
      | some t =>
          obtain ⟨hg₂, hd₂, hp⟩ := h₂
          refine .bind (after_anchor? hg₂) fun a g₃ h₃ => ?_
          cases a with
          | some a => exact .pure ⟨_, h₃.1, h₃.2.1, Or.inl ⟨t.2.2, by simp, hp, rfl⟩⟩
          | none =>
              obtain rfl : g₃ = g₂ := h₃
              exact .pure ⟨_, hg₂, hd₂, Or.inl ⟨t.2.2, by simp, hp, rfl⟩⟩
      | none =>
          obtain rfl : g₂ = g₁ := h₂
          refine .pure ⟨_, hg, hd, Or.inr fun t rest' ht => ?_⟩
          rw [hhere] at ht
          cases ht
          rfl

theorem draws_contentAfter {inBlock indentless : Bool} {w : Written} {p : Properties}
    (hw : Fronted ts w.start done g) : Draws ts (contentAfter inBlock indentless w p) g := by
  have hg := hw.tokens
  have hmissing : ∀ t : Token, Draws ts (contentAfter.missing inBlock w p t) g := fun t =>
    .ite (fun _ => draws_complete hg Event.drawn_empty) fun _ => draws_fail
  refine after_peek fun t rest ht => ?_
  have hopened : ∀ {e : Expect} {kind : Event.Kind}, e.Fits (done ++ [t]) →
      (∀ properties style s, kind ≠ .scalar properties style s) →
      Draws ts (contentAfter.opened w t e kind) g := fun he hk =>
    draws_skip hg ht fun g' hg' _ => draws_next hg' he (.of_not_scalar hk)
  split
  · exact .ite (fun _ => draws_next hg trivial (.of_not_scalar (by simp))) fun _ => hmissing t
  · rename_i style s hk
    refine draws_skip hg ht fun g' hg' _ =>
      draws_complete hg' fun properties style' s' hk' => Or.inr ?_
    cases hk'
    refine ⟨done, t, rest, by rw [hg.tokens, ht], hk, rfl, hw.last, ?_⟩
    rcases hw.start with ⟨first, hm, hp, hs⟩ | hs
    · exact ⟨first, List.mem_append_left _ hm, hp, hs⟩
    · exact ⟨t, by simp, by rw [hk]; rfl, hs t rest ht⟩
  · rename_i hk
    exact hopened (fun _ => not_endsNode (by rw [hk]; rfl)) (by simp)
  · rename_i hk
    exact hopened (fun _ => not_endsNode (by rw [hk]; rfl)) (by simp)
  · exact .ite (fun _ => hopened trivial (by simp)) fun _ => hmissing t
  · exact .ite (fun _ => hopened trivial (by simp)) fun _ => hmissing t
  · exact hmissing t

theorem draws_node {inBlock indentless : Bool} (hg : g.At ts done) (hd : ¬EndsNode done) :
    Draws ts (node inBlock indentless) g := by
  refine after_peek fun t rest ht => ?_
  split
  · exact draws_skip hg ht fun g' hg' _ => draws_complete hg' (.of_not_scalar (by simp))
  · refine .bind (after_written hg hd) fun w g₁ ⟨done', h₁⟩ =>
      .bind after_properties fun p g₂ h₂ => ?_
    subst h₂
    exact draws_contentAfter h₁

/-- Behind an indicator a node may come, with something left for later. -/
theorem draws_behind {inBlock indentless : Bool} {e : Expect} (hg : g.At ts (done ++ [t]))
    (ht : t.kind.endsNode = false)
    (he : ∀ done, e.Fits done) : Draws ts (later e >>= fun _ => node inBlock indentless) g :=
  draws_later hg he fun _ hg' _ => draws_node hg' (not_endsNode ht)

end Nodes

/-! ## Collections -/

section Collections

variable {ts done : List Token} {g : Grammar}

theorem draws_blockEntry (hg : g.At ts done) (began : Mark) : Draws ts (blockEntry began) g :=
  after_peek fun t rest ht => by
  split
  · rename_i hk
    refine draws_skip hg ht fun g' hg' _ => after_peek fun t' rest' ht' => ?_
    split
    · exact draws_noNode hg' fun _ => trivial
    · exact draws_noNode hg' fun _ => trivial
    · exact draws_behind hg' (by rw [hk]; rfl) fun _ => trivial
  · exact draws_skip hg ht fun g' hg' _ => draws_complete hg' (.of_not_scalar (by simp))
  · exact draws_fail

theorem draws_indentlessEntry (hg : g.At ts done) : Draws ts indentlessEntry g :=
  after_peek fun t rest ht => by
  split
  · rename_i hk
    refine draws_skip hg ht fun g' hg' _ => after_peek fun t' rest' ht' => ?_
    split
    · exact draws_noNode hg' fun _ => trivial
    · exact draws_noNode hg' fun _ => trivial
    · exact draws_noNode hg' fun _ => trivial
    · exact draws_noNode hg' fun _ => trivial
    · exact draws_behind hg' (by rw [hk]; rfl) fun _ => trivial
  · exact draws_complete hg (.of_not_scalar (by simp))

theorem draws_blockPart {indicatorEnd : Mark} {e : Expect} {t : Token} (hg : g.At ts (done ++ [t]))
    (ht : t.kind.endsNode = false) (he : ∀ done, e.Fits done) :
      Draws ts (blockPart indicatorEnd e) g := after_peek fun t' rest' ht' => by
  split
  · exact draws_noNode hg he
  · exact draws_noNode hg he
  · exact draws_noNode hg he
  · exact draws_behind hg ht he

theorem draws_blockKey (hg : g.At ts done) (began : Mark) : Draws ts (blockKey began) g :=
  after_peek fun t rest ht => by
  split
  · rename_i hk
    exact draws_skip hg ht fun g' hg' _ => draws_blockPart hg' (by rw [hk]; rfl) fun _ => trivial
  · exact draws_skip hg ht fun g' hg' _ => draws_complete hg' (.of_not_scalar (by simp))
  · exact draws_fail

theorem draws_blockValue (hg : g.At ts done) (began : Mark) : Draws ts (blockValue began) g :=
  after_peek fun t rest ht => by
  split
  · rename_i hk
    exact draws_skip hg ht fun g' hg' _ => draws_blockPart hg' (by rw [hk]; rfl) fun _ => trivial
  · exact draws_noNode hg fun _ => trivial

theorem draws_closed {kind : Event.Kind} (hg : g.At ts done)
    (hk : ∀ properties style s, kind ≠ .scalar properties style s) :
    Draws ts (closed kind) g := after_peek fun _ _ ht =>
  draws_skip hg ht fun _ hg' _ => draws_complete hg' (.of_not_scalar hk)

/-- The comma in front of all entries but the first, which is only expected where no node has
ended. -/
theorem draws_separated {first : Bool} {cause : Cause} {activity : Activity} {began : Mark}
    {f : Unit → Parse Event} (hg : g.At ts done) (hd : first = true → ¬EndsNode done)
    (hf : ∀ g done, Grammar.At ts done g → ¬EndsNode done → Draws ts (f ()) g) :
    Draws ts (if !first then
      peek >>= fun t =>
        if t.kind ≠ .flowEntry then
          (fail cause t.start (some (activity, began)) : Parse Unit) >>= fun _ => skip >>= f
        else skip >>= f
      else f ()) g := by
  refine .ite (fun _ => after_peek fun t rest ht =>
    .ite (fun _ => .bind (p := fun _ _ => False) (.throw _) fun _ _ h => h.elim)
    fun hk => ?_) fun hfirst => hf _ _ hg (hd (by simpa using hfirst))
  simp only [ne_eq, Decidable.not_not] at hk
  exact draws_skip hg ht fun g' hg' _ => hf _ _ hg' (not_endsNode (by rw [hk]; rfl))

theorem draws_flowEntry {first : Bool} (hg : g.At ts done) (hd : first = true → ¬EndsNode done)
    (began : Mark) : Draws ts (flowEntry first began) g := after_peek fun t rest ht => by
  refine .ite (fun _ => draws_closed hg (by simp)) fun _ =>
    draws_separated hg hd fun g done hg hd => after_peek fun t rest ht => ?_
  split
  · rename_i hk
    exact draws_skip hg ht fun g' hg' _ =>
      draws_next hg' (not_endsNode (by rw [hk]; rfl)) (.of_not_scalar (by simp))
  · exact draws_closed hg (by simp)
  · exact draws_later hg (fun _ => nofun) fun g' hg' _ => draws_node hg' hd

theorem draws_pairKey (hg : g.At ts done) (hd : ¬EndsNode done) (began : Mark) :
    Draws ts (pairKey began) g :=
  after_peek fun t rest ht => by
    have hnone : Draws ts (skip >>= fun _ => noNode t.stop (.pairValue began)) g :=
      draws_skip hg ht fun g' hg' _ => draws_noNode hg' fun _ => trivial
    split
    · exact hnone
    · exact hnone
    · exact hnone
    · exact draws_later hg (fun _ => trivial) fun g' hg' _ => draws_node hg' hd

theorem draws_pairValue (hg : g.At ts done) (began : Mark) : Draws ts (pairValue began) g :=
  after_peek fun t rest ht => by
  split
  · rename_i hk
    refine draws_skip hg ht fun g' hg' _ => after_peek fun t' rest' ht' => ?_
    split
    · exact draws_noNode hg' fun _ => trivial
    · exact draws_noNode hg' fun _ => trivial
    · exact draws_behind hg' (by rw [hk]; rfl) fun _ => trivial
  · exact draws_noNode hg fun _ => trivial

theorem draws_pairEnd (hg : g.At ts done) (began : Mark) : Draws ts (pairEnd began) g :=
  after_peek fun _ _ _ => draws_next hg nofun (.of_not_scalar (by simp))

theorem draws_flowKey {first : Bool} (hg : g.At ts done) (hd : first = true → ¬EndsNode done)
    (began : Mark) : Draws ts (flowKey first began) g := after_peek fun t rest ht => by
  refine .ite (fun _ => draws_closed hg (by simp)) fun _ =>
    draws_separated hg hd fun g done hg hd => after_peek fun t rest ht => ?_
  split
  · rename_i hk
    refine draws_skip hg ht fun g' hg' _ => after_peek fun t' rest' ht' => ?_
    split
    · exact draws_noNode hg' fun _ => trivial
    · exact draws_noNode hg' fun _ => trivial
    · exact draws_noNode hg' fun _ => trivial
    · exact draws_behind hg' (by rw [hk]; rfl) fun _ => trivial
  · exact draws_closed hg (by simp)
  · exact draws_later hg (fun _ => trivial) fun g' hg' _ => draws_node hg' hd

theorem draws_flowValue (hg : g.At ts done) (began : Mark) : Draws ts (flowValue began) g :=
  after_peek fun t rest ht => by
  split
  · rename_i hk
    refine draws_skip hg ht fun g' hg' _ => after_peek fun t' rest' ht' => ?_
    split
    · exact draws_noNode hg' fun _ => nofun
    · exact draws_noNode hg' fun _ => nofun
    · exact draws_behind hg' (by rw [hk]; rfl) fun _ => nofun
  · exact draws_noNode hg fun _ => nofun

theorem draws_flowNoValue (hg : g.At ts done) (began : Mark) : Draws ts (flowNoValue began) g :=
  after_peek fun _ _ _ => draws_noNode hg fun _ => nofun

end Collections

/-! ## Documents -/

section Documents

variable {ts done : List Token} {g : Grammar}

theorem draws_content (hg : g.At ts done) (hd : ¬EndsNode done) : Draws ts content g :=
  after_peek fun _ _ _ =>
  .ite (fun _ => draws_complete hg Event.drawn_empty) fun _ => draws_node hg hd

theorem draws_documentEnd (hg : g.At ts done) : Draws ts documentEnd g := by
  refine after_peek fun t rest ht a g' h => ?_
  change (if t.kind = .documentEnd then skip >>= fun _ => pure ⟨.documentEnd, t.start, t.stop⟩
    else pure ⟨.documentEnd, t.start, t.start⟩ : Parse Event)
      { g with expect := .document false, handles := [] } = _ at h
  split at h
  · cases h
    refine ⟨.of_not_scalar (by simp), done ++ [t], ⟨?_, hg.stack⟩, nofun⟩
    rw [hg.tokens, ht]
    simp
  · cases h
    exact ⟨.of_not_scalar (by simp), done, ⟨hg.tokens, hg.stack⟩, nofun⟩

theorem at_drops {g' : Grammar} (hg : g.At ts done) (h : Drops g g') :
    ∃ done', g'.At ts done' ∧ (¬EndsNode done → ¬EndsNode done') := by
  obtain ⟨dropped, ht, hends⟩ := h.passed
  refine ⟨done ++ dropped,
    ⟨by rw [hg.tokens, ht, List.append_assoc], by rw [h.stack]; exact hg.stack⟩, ?_⟩
  rintro hd ⟨t, hm, he⟩
  rw [List.getLast?_append] at hm
  cases hl : dropped.getLast? with
  | none =>
      rw [hl, Option.none_or] at hm
      exact hd ⟨t, hm, he⟩
  | some x =>
      rw [hl, Option.some_or] at hm
      cases hm
      have hk := hends t (List.mem_of_getLast? hl)
      unfold Token.Kind.endsNode at he
      split at he <;> simp_all [isDirective]

theorem draws_document {bare : Bool} (hg : g.At ts done) (hd : bare = true → ¬EndsNode done) :
    Draws ts (document bare) g := by
  unfold document
  refine .andThen (p := fun g₁ => ∃ done₁, g₁.At ts done₁ ∧ (bare = true → ¬EndsNode done₁))
    (fun a g₁ h => ?_) ⟨done, hg, hd⟩ fun g₁ ⟨done₁, hg₁, hd₁⟩ => after_peek fun t rest ht => ?_
  · obtain ⟨done₁, hg₁, hd₁⟩ := at_drops hg (drops_skipDocumentEnds a g₁ h)
    exact ⟨done₁, hg₁, fun hb => hd₁ (hd hb)⟩
  refine .ite (fun _ => ?_) fun _ => .ite (fun hbare => ?_) fun _ => ?_
  · exact draws_skip hg₁ ht fun g' hg' _ => draws_next hg' trivial (.of_not_scalar (by simp))
  · refine .bind drops_setHandles fun _ g₂ h₂ => ?_
    obtain ⟨done₂, hg₂, hd₂⟩ := at_drops hg₁ h₂
    simp only [Bool.and_eq_true] at hbare
    exact draws_later hg₂ (fun _ => trivial) fun g' hg' _ =>
      draws_next hg' (hd₂ (hd₁ hbare.1.1)) (.of_not_scalar (by simp))
  · refine .bind drops_setHandles fun _ g₂ h₂ => after_peek fun mark rest' ht' =>
      .ite (fun _ => ?_) fun hmark => ?_
    · exact .bind (p := fun _ _ => False) (.throw _) fun _ _ h => h.elim
    obtain ⟨done₂, hg₂, -⟩ := at_drops hg₁ h₂
    simp only [ne_eq, Decidable.not_not] at hmark
    refine draws_later hg₂ (fun _ => trivial) fun g' hg' htok e g'' h => ?_
    cases h
    rw [ht'] at htok
    exact ⟨.of_not_scalar (by simp), done₂ ++ [mark], ⟨by simpa [htok] using hg'.tokens, hg'.stack⟩,
      not_endsNode (by rw [hmark]; rfl)⟩

theorem draws_stream (hg : g.At ts []) (hfirst : ∀ t ∈ ts.head?, t.kind.endsNode = false) :
    Draws ts stream g :=
  after_peek fun t rest ht => draws_skip hg ht fun _ hg' _ =>
    draws_next hg' (fun _ => not_endsNode (hfirst t (by rw [hg.tokens, ht]; rfl)))
      (.of_not_scalar (by simp))

end Documents

/-! ## Steps -/

theorem draws_step {ts : List Token} {g g' : Grammar} {e : Event}
    (hfirst : ∀ t ∈ ts.head?, t.kind.endsNode = false)
    (hg : g.Ready ts) (h : step g = .ok (some e, g')) : e.Drawn ts ∧ g'.Ready ts := by
  obtain ⟨done, hat, hd⟩ := hg
  have hsome : ∀ {x : Parse Event}, Draws ts x g → (some <$> x) g = .ok (some e, g') →
      e.Drawn ts ∧ g'.Ready ts := by
    intro x hx h
    obtain ⟨e', h, he⟩ := ok_of_map h
    cases he
    exact hx _ _ h
  unfold step at h
  rw [get_bind] at h
  cases he : g.expect <;> simp only [he, Expect.Fits] at h hd
  case nothing => cases h
  case stream =>
      subst hd
      exact hsome (draws_stream hat hfirst) h
  case document bare => exact hsome (draws_document hat hd) h
  case documentEnd => exact hsome (draws_documentEnd hat) h
  case content => exact hsome (draws_content hat hd) h
  case blockNode => exact hsome (draws_node hat hd) h
  case blockEntry began => exact hsome (draws_blockEntry hat began) h
  case indentlessEntry => exact hsome (draws_indentlessEntry hat) h
  case blockKey began => exact hsome (draws_blockKey hat began) h
  case blockValue began => exact hsome (draws_blockValue hat began) h
  case flowEntry first began => exact hsome (draws_flowEntry hat hd began) h
  case pairKey began => exact hsome (draws_pairKey hat hd began) h
  case pairValue began => exact hsome (draws_pairValue hat began) h
  case pairEnd began => exact hsome (draws_pairEnd hat began) h
  case flowKey first began => exact hsome (draws_flowKey hat hd began) h
  case flowValue began => exact hsome (draws_flowValue hat began) h
  case flowNoValue began => exact hsome (draws_flowNoValue hat began) h

end Parse

/-! ## Events of a text -/

theorem Grammar.drawn_run {ts : List Token} (hfirst : ∀ t ∈ ts.head?, t.kind.endsNode = false) :
    (fuel : Nat) → {g : Grammar} → {acc : List Event} → g.Ready ts → (∀ e ∈ acc, e.Drawn ts) →
    ∀ e ∈ (run fuel g acc).1, e.Drawn ts
  | 0, _, _, _, hacc => hacc
  | fuel + 1, g, acc, hg, hacc => by
      rw [run]
      split
      · exact hacc
      · exact hacc
      · rename_i e g' hs
        obtain ⟨he, hg'⟩ := Parse.draws_step hfirst hg hs
        exact drawn_run hfirst fuel hg' (List.forall_mem_cons.mpr ⟨he, hacc⟩)

theorem Events.drawn_ofTokens {t : Tokens} (hfirst : ∀ x ∈ t.list.head?, x.kind.endsNode = false) :
    ∀ e ∈ (Events.ofTokens t).list, e.Drawn t.list := by
  have hready : (Grammar.ofTokens t.list).Ready t.list :=
    ⟨[], ⟨rfl, fun _ h => absurd h List.not_mem_nil⟩, rfl⟩
  have hrun :=
    Grammar.drawn_run hfirst (4 * t.list.length + 8) hready fun _ h => absurd h List.not_mem_nil
  unfold Events.ofTokens
  split <;> rename_i hr <;> rw [hr] at hrun <;> exact fun e he => hrun e (List.mem_reverse.mp he)

end BootConfig.Yaml
