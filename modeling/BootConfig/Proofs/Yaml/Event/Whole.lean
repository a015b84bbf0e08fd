import BootConfig.Proofs.Yaml.Event.Progress
import BootConfig.Proofs.Yaml.Token.Whole

/-!
# No event is lost

No step of the grammar but the last takes the end of the stream, so that it never runs out of the
tokens of a whole text. Its run over them ends with a problem of its own or with the event of that
end.
-/

namespace BootConfig.Yaml

open Steps

namespace Tokens.Reach

variable {last t : Token} {ts : List Token}

theorem ne_nil (h : Reach last ts) : ts ≠ [] := by
  obtain ⟨front, rfl, _⟩ := h.split
  simp

theorem tail (h : Reach last (t :: ts)) (ht : t.kind ≠ .streamEnd) : Reach last ts := by
  obtain ⟨front, heq, hfront⟩ := h.split
  cases front with
  | nil =>
      cases heq
      exact absurd h.kind ht
  | cons t' front =>
      cases heq
      exact ⟨h.kind, front, rfl, fun t ht => hfront t (List.mem_cons_of_mem _ ht)⟩

theorem drop {dropped : List Token} (hd : ∀ t ∈ dropped, t.kind ≠ .streamEnd)
    (h : Reach last (dropped ++ ts)) : Reach last ts := by
  induction dropped with
  | nil => exact h
  | cons t dropped ih =>
      obtain ⟨ht, hd⟩ := List.forall_mem_cons.mp hd
      exact ih hd (h.tail ht)

/-- The only token that ends the stream is the last. -/
theorem eq_last (h : Reach last ts) (hm : t ∈ ts) (hk : t.kind = .streamEnd) : t = last := by
  obtain ⟨front, rfl, hfront⟩ := h.split
  rcases List.mem_append.mp hm with hm | hm
  · exact absurd hk (hfront t hm)
  · exact List.mem_singleton.mp hm

end Tokens.Reach

namespace Parse

open Tokens (Reach)

/-- The reader fails with a problem of its own, never for want of tokens, and behind it a predicate
holds. -/
structure Careful {α : Type} (x : Parse α) (g : Grammar) (p : α → Grammar → Prop) : Prop where
  problem : x g ≠ .error none
  after : After x g p

namespace Careful

variable {α β : Type} {x : Parse α} {f : α → Parse β} {g : Grammar} {p p' : α → Grammar → Prop}
  {q : β → Grammar → Prop}

theorem imp (h : ∀ a g', p a g' → p' a g') (hx : Careful x g p) : Careful x g p' :=
  ⟨hx.problem, hx.after.imp h⟩

theorem pure {a : α} (h : p a g) : Careful (Pure.pure a) g p := ⟨(fun h => by cases h), .pure h⟩

theorem fail {cause : Cause} {place : Mark} {context : Option (Activity × Mark)} :
    Careful (fail cause place context : Parse α) g p :=
  ⟨(fun h => by cases h), .throw _⟩

theorem bind (hx : Careful x g p) (hf : ∀ a g', p a g' → Careful (f a) g' q) :
    Careful (x >>= f) g q := by
  refine ⟨fun h => ?_, hx.after.bind fun a g' ha => (hf a g' ha).after⟩
  cases hr : x g with
  | error problem =>
      rw [bind_error hr] at h
      cases h
      exact hx.problem hr
  | ok r =>
      obtain ⟨a, g'⟩ := r
      rw [bind_ok hr] at h
      exact (hf a g' (hx.after a g' hr)).problem h

theorem ite {c : Prop} [Decidable c] {y : Parse α} (hx : c → Careful x g p)
    (hy : ¬c → Careful y g p) : Careful (if c then x else y) g p := by
  split
  · exact hx ‹_›
  · exact hy ‹_›

/-- A step that is taken under a condition, and what follows in any case. -/
theorem andThen {c : Prop} [Decidable c] {x : Parse Unit} {f : Unit → Parse β} {p : Grammar → Prop}
    (hx : Careful x g fun _ => p) (hg : p g) (hf : ∀ g', p g' → Careful (f ()) g' q) :
      Careful (if c then x >>= f else f ()) g q :=
  .ite (fun _ => .bind hx fun _ g' h => hf g' h) fun _ => hf g hg

end Careful

/-- A reader of an event that leaves the end of the stream where it is. -/
abbrev Reaches (last : Token) {α : Type} (x : Parse α) (g : Grammar) : Prop :=
  Careful x g fun _ g' => Reach last g'.tokens

section Reaches

variable {α : Type} {last t : Token} {ts : List Token} {g : Grammar} {p : α → Grammar → Prop}

theorem careful_peek {f : Token → Parse α} (hg : Reach last g.tokens)
    (h : ∀ t ts, g.tokens = t :: ts → Careful (f t) g p) : Careful (peek >>= f) g p := by
  refine ⟨fun hn => ?_, after_peek fun t ts ht => (h t ts ht).after⟩
  obtain ⟨t, ts, ht⟩ := List.exists_cons_of_ne_nil hg.ne_nil
  have hp : peek g = .ok (t, g) := by
    unfold peek
    rw [get_bind]
    simp only [ht]
    rfl
  rw [bind_ok hp] at hn
  exact (h t ts ht).problem hn

theorem careful_skip {f : Unit → Parse α} (hg : Reach last g.tokens) (ht : g.tokens = t :: ts)
    (hk : t.kind ≠ .streamEnd)
    (h : Reach last ({ g with tokens := ts } : Grammar).tokens →
      Careful (f ()) { g with tokens := ts } p) :
    Careful (skip >>= f) g p := by
  have hs : skip g = .ok ((), { g with tokens := ts }) := by
    unfold skip
    rw [modify_apply, ht]
    rfl
  have hf := h ((ht ▸ hg).tail hk)
  exact ⟨by rw [bind_ok hs]; exact hf.problem, after_skip ht hf.after⟩

theorem reaches_next {event : Event} {e : Expect} (hg : Reach last g.tokens) :
    Reaches last (next e >>= fun _ => pure event) g :=
  ⟨(fun h => by cases h), fun _ _ h => by cases h; exact hg⟩

theorem reaches_later {f : Unit → Parse Event} {e : Expect}
    (h : Reaches last (f ()) { g with stack := e :: g.stack }) :
    Reaches last (later e >>= f) g := ⟨h.problem, h.after⟩

theorem reaches_complete {event : Event} (hg : Reach last g.tokens) :
    Reaches last (complete >>= fun _ => pure event) g := by
  refine ⟨(fun h => by cases h), fun _ _ h => ?_⟩
  unfold Parse.complete at h
  rw [modify_bind] at h
  cases hs : g.stack <;> simp only [hs] at h <;> cases h <;> exact hg

theorem reaches_noNode {place : Mark} {e : Expect} (hg : Reach last g.tokens) :
    Reaches last (noNode place e) g := reaches_next hg

end Reaches

/-! ## Nodes -/

section Nodes

variable {last t : Token} {ts : List Token} {g : Grammar}

theorem reaches_anchor? (hg : Reach last g.tokens) : Reaches last anchor? g :=
  careful_peek hg fun t ts ht => by
  split
  · rename_i hk
    exact careful_skip hg ht (by simp [hk]) fun hts => .pure hts
  · exact .pure hg

theorem reaches_tag? (hg : Reach last g.tokens) : Reaches last tag? g :=
  careful_peek hg fun t ts ht => by
  split
  · rename_i hk
    exact careful_skip hg ht (by simp [hk]) fun hts => .pure hts
  · exact .pure hg

theorem reaches_written (hg : Reach last g.tokens) : Reaches last written g := by
  refine careful_peek hg fun here _ _ => .bind (reaches_anchor? hg) fun a g₁ h₁ => ?_
  cases a with
  | some a =>
      refine .bind (reaches_tag? h₁) fun t g₂ h₂ => ?_
      cases t <;> exact .pure h₂
  | none =>
      refine .bind (reaches_tag? h₁) fun t g₂ h₂ => ?_
      cases t with
      | some t =>
          refine .bind (reaches_anchor? h₂) fun a g₃ h₃ => ?_
          cases a <;> exact .pure h₃
      | none => exact .pure h₂

theorem reaches_resolveTag {handle : String} {suffix : TagText} {nodeMark tagMark : Mark}
    (hg : Reach last g.tokens) : Reaches last (resolveTag handle suffix nodeMark tagMark) g :=
  .ite (fun _ => .pure hg) fun _ =>
    .bind (p := fun _ g' => g' = g) ⟨(fun h => by cases h),
    fun _ _ h => by cases h; rfl⟩ fun g₁ g' h => by
    subst h
    split
    · exact .pure hg
    · exact .fail

theorem reaches_properties {w : Written} (hg : Reach last g.tokens) :
    Reaches last (properties w) g := by
  unfold properties
  cases w.tag with
  | some tag => exact .bind (reaches_resolveTag hg) fun _ _ h => .pure h
  | none => exact .pure hg

theorem reaches_contentAfter {inBlock indentless : Bool} {w : Written} {p : Properties}
    (hg : Reach last g.tokens) : Reaches last (contentAfter inBlock indentless w p) g := by
  have hmissing : ∀ t : Token, Reaches last (contentAfter.missing inBlock w p t) g := fun t =>
    .ite (fun _ => reaches_complete hg) fun _ => .fail
  refine careful_peek hg fun t ts ht => ?_
  have hopened : ∀ {e : Expect} {kind : Event.Kind}, t.kind ≠ .streamEnd →
      Reaches last (contentAfter.opened w t e kind) g :=
    fun hk => careful_skip hg ht hk reaches_next
  split <;> rename_i hk
  · exact .ite (fun _ => reaches_next hg) fun _ => hmissing t
  · exact careful_skip hg ht (by simp [hk]) reaches_complete
  · exact hopened (by simp [hk])
  · exact hopened (by simp [hk])
  · exact .ite (fun _ => hopened (by simp [hk])) fun _ => hmissing t
  · exact .ite (fun _ => hopened (by simp [hk])) fun _ => hmissing t
  · exact hmissing t

theorem reaches_node {inBlock indentless : Bool} (hg : Reach last g.tokens) :
    Reaches last (node inBlock indentless) g := by
  refine careful_peek hg fun t ts ht => ?_
  split
  · rename_i hk
    exact careful_skip hg ht (by simp [hk]) reaches_complete
  · exact .bind (reaches_written hg) fun w g₁ h₁ => .bind (reaches_properties h₁) fun p g₂ h₂ =>
      reaches_contentAfter h₂

/-- A node with something left for later. -/
theorem reaches_behind {inBlock indentless : Bool} {e : Expect} (hg : Reach last g.tokens) :
    Reaches last (later e >>= fun _ => node inBlock indentless) g := reaches_later (reaches_node hg)

/-! ## Collections -/

theorem reaches_blockEntry (began : Mark) (hg : Reach last g.tokens) :
    Reaches last (blockEntry began) g :=
  careful_peek hg fun t ts ht => by
    split <;> rename_i hk
    · refine careful_skip hg ht (by simp [hk]) fun hts => careful_peek hts fun t' ts' ht' => ?_
      split
      · exact reaches_noNode hts
      · exact reaches_noNode hts
      · exact reaches_behind hts
    · exact careful_skip hg ht (by simp [hk]) reaches_complete
    · exact .fail

theorem reaches_indentlessEntry (hg : Reach last g.tokens) : Reaches last indentlessEntry g :=
  careful_peek hg fun t ts ht => by
  split <;> rename_i hk
  · refine careful_skip hg ht (by simp [hk]) fun hts => careful_peek hts fun t' ts' ht' => ?_
    split
    · exact reaches_noNode hts
    · exact reaches_noNode hts
    · exact reaches_noNode hts
    · exact reaches_noNode hts
    · exact reaches_behind hts
  · exact reaches_complete hg

theorem reaches_blockPart {indicatorEnd : Mark} {e : Expect} (hg : Reach last g.tokens) :
    Reaches last (blockPart indicatorEnd e) g :=
  careful_peek hg fun t ts ht => by
    split
    · exact reaches_noNode hg
    · exact reaches_noNode hg
    · exact reaches_noNode hg
    · exact reaches_behind hg

theorem reaches_blockKey (began : Mark) (hg : Reach last g.tokens) :
    Reaches last (blockKey began) g := careful_peek hg fun t ts ht => by
  split <;> rename_i hk
  · exact careful_skip hg ht (by simp [hk]) reaches_blockPart
  · exact careful_skip hg ht (by simp [hk]) reaches_complete
  · exact .fail

theorem reaches_blockValue (began : Mark) (hg : Reach last g.tokens) :
    Reaches last (blockValue began) g :=
  careful_peek hg fun t ts ht => by
    split <;> rename_i hk
    · exact careful_skip hg ht (by simp [hk]) reaches_blockPart
    · exact reaches_noNode hg

theorem reaches_closed {kind : Event.Kind} (hg : Reach last g.tokens) (ht : g.tokens = t :: ts)
    (hk : t.kind ≠ .streamEnd) :
    Reaches last (closed kind) g := careful_peek hg fun t' ts' ht' => by
  obtain ⟨rfl, rfl⟩ := List.cons.inj (ht.symm.trans ht')
  exact careful_skip hg ht hk reaches_complete

/-- The comma in front of all entries but the first. -/
theorem reaches_separated {first : Bool} {cause : Cause} {activity : Activity} {began : Mark}
    {f : Unit → Parse Event}
    (hg : Reach last g.tokens) (hf : ∀ g', Reach last g'.tokens → Reaches last (f ()) g') :
    Reaches last (if !first then
      peek >>= fun t =>
        if t.kind ≠ .flowEntry then
          (fail cause t.start (some (activity, began)) : Parse Unit) >>= fun _ => skip >>= f
        else skip >>= f
      else f ()) g :=
  .ite (fun _ => careful_peek hg fun _ _ ht =>
    .ite (fun _ => .bind (p := fun _ _ => False) .fail fun _ _ h => h.elim)
    fun hk => careful_skip hg ht (by simp [not_not.mp hk]) (hf _)) fun _ => hf _ hg

theorem reaches_flowEntry (first : Bool) (began : Mark) (hg : Reach last g.tokens) :
    Reaches last (flowEntry first began) g :=
  careful_peek hg fun t ts ht => by
    refine .ite (fun hk => reaches_closed hg ht (by simp [hk])) fun _ =>
      reaches_separated hg fun g' hg' => careful_peek hg' fun t ts ht => ?_
    split <;> rename_i hk
    · exact careful_skip hg' ht (by simp [hk]) reaches_next
    · exact reaches_closed hg' ht (by simp [hk])
    · exact reaches_behind hg'

theorem reaches_pairKey (began : Mark) (hg : Reach last g.tokens) :
    Reaches last (pairKey began) g := careful_peek hg fun t ts ht => by
  have hnone : t.kind ≠ .streamEnd →
      Reaches last (skip >>= fun _ => noNode t.stop (.pairValue began)) g :=
    fun hk => careful_skip hg ht hk reaches_noNode
  split <;> rename_i hk
  · exact hnone (by simp [hk])
  · exact hnone (by simp [hk])
  · exact hnone (by simp [hk])
  · exact reaches_behind hg

theorem reaches_pairValue (began : Mark) (hg : Reach last g.tokens) :
    Reaches last (pairValue began) g :=
  careful_peek hg fun t ts ht => by
    split <;> rename_i hk
    · refine careful_skip hg ht (by simp [hk]) fun hts => careful_peek hts fun t' ts' ht' => ?_
      split
      · exact reaches_noNode hts
      · exact reaches_noNode hts
      · exact reaches_behind hts
    · exact reaches_noNode hg

theorem reaches_pairEnd (began : Mark) (hg : Reach last g.tokens) :
    Reaches last (pairEnd began) g :=
  careful_peek hg fun _ _ _ => reaches_next hg

theorem reaches_flowKey (first : Bool) (began : Mark) (hg : Reach last g.tokens) :
    Reaches last (flowKey first began) g :=
  careful_peek hg fun t ts ht => by
    refine .ite (fun hk => reaches_closed hg ht (by simp [hk])) fun _ =>
      reaches_separated hg fun g' hg' => careful_peek hg' fun t ts ht => ?_
    split <;> rename_i hk
    · refine careful_skip hg' ht (by simp [hk]) fun hts => careful_peek hts fun t' ts' ht' => ?_
      split
      · exact reaches_noNode hts
      · exact reaches_noNode hts
      · exact reaches_noNode hts
      · exact reaches_behind hts
    · exact reaches_closed hg' ht (by simp [hk])
    · exact reaches_behind hg'

theorem reaches_flowValue (began : Mark) (hg : Reach last g.tokens) :
    Reaches last (flowValue began) g :=
  careful_peek hg fun t ts ht => by
    split <;> rename_i hk
    · refine careful_skip hg ht (by simp [hk]) fun hts => careful_peek hts fun t' ts' ht' => ?_
      split
      · exact reaches_noNode hts
      · exact reaches_noNode hts
      · exact reaches_behind hts
    · exact reaches_noNode hg

theorem reaches_flowNoValue (began : Mark) (hg : Reach last g.tokens) :
    Reaches last (flowNoValue began) g :=
  careful_peek hg fun _ _ _ => reaches_noNode hg

/-! ## Documents -/

theorem reaches_content (hg : Reach last g.tokens) : Reaches last content g :=
  careful_peek hg fun _ _ _ => .ite (fun _ => reaches_complete hg) fun _ => reaches_node hg

theorem directives_ne_none {versioned : Bool} {handles : Handles} (h : Reach last ts) :
    directives ts versioned handles ≠ .error none := by
  induction ts generalizing versioned handles with
  | nil => exact absurd rfl h.ne_nil
  | cons t ts ih =>
      unfold directives
      split
      · rename_i hk
        split
        · simp
        · split
          · simp
          · exact ih (h.tail (by simp [hk]))
      · rename_i hk
        split
        · simp
        · exact ih (h.tail (by simp [hk]))
      · simp

theorem Drops.reach {g' : Grammar} (h : Drops g g') (hg : Reach last g.tokens) :
    Reach last g'.tokens := by
  obtain ⟨dropped, ht, hd⟩ := h.passed
  rw [ht] at hg
  refine hg.drop fun t hm hk => ?_
  rcases hd t hm with h | h <;> rw [hk] at h <;> cases h

theorem reaches_setHandles (hg : Reach last g.tokens) : Reaches last setHandles g := by
  refine ⟨fun h => ?_, drops_setHandles.imp fun _ _ h => h.reach hg⟩
  unfold setHandles at h
  rw [get_bind] at h
  cases hd : directives g.tokens false [] with
  | error problem =>
      rw [hd] at h
      cases h
      exact directives_ne_none hg hd
  | ok r =>
      rw [hd] at h
      cases h

theorem reaches_documentEnd (hg : Reach last g.tokens) : Reaches last documentEnd g :=
  careful_peek hg fun t ts ht => by
  have hlast : Reaches last
      (if t.kind = .documentEnd then skip >>= fun _ => pure ⟨.documentEnd, t.start, t.stop⟩
        else pure ⟨.documentEnd, t.start, t.start⟩ : Parse Event)
      { g with expect := .document false, handles := [] } :=
    .ite (fun hk => careful_skip hg ht (by simp [hk]) fun hts => .pure hts) fun _ => .pure hg
  exact ⟨hlast.problem, hlast.after⟩

/-- Only the end of the stream takes the last token. -/
theorem careful_document (bare : Bool) (hg : Reach last g.tokens) :
    Careful (document bare) g fun e g' => e.kind ≠ .streamEnd → Reach last g'.tokens := by
  have hdrop : Reaches last skipDocumentEnds g :=
    ⟨(fun h => by cases h), drops_skipDocumentEnds.imp fun _ _ h => h.reach hg⟩
  have hstarted : ∀ {x : Parse Event} {g : Grammar}, Reaches last x g →
      Careful x g fun e g' => e.kind ≠ .streamEnd → Reach last g'.tokens :=
        fun hx => hx.imp fun _ _ h _ => h
  unfold document
  refine .andThen (p := fun g' => Reach last g'.tokens) hdrop hg fun g₁ h₁ =>
    careful_peek h₁ fun t ts ht => ?_
  refine .ite (fun _ => ?_) fun _ => .ite (fun _ => ?_) fun _ => ?_
  · exact ⟨(fun h => by cases h), fun _ _ h hne => by cases h; exact absurd rfl hne⟩
  · exact .bind (reaches_setHandles h₁) fun _ g₂ h₂ =>
      hstarted (reaches_later (reaches_next (g := { g₂ with stack := _ }) h₂))
  · refine .bind (reaches_setHandles h₁) fun _ g₂ h₂ => careful_peek h₂ fun mark ts' ht' =>
      .ite (fun _ => ?_) fun hk => ?_
    · exact .bind (p := fun _ _ => False) .fail fun _ _ h => h.elim
    · have hskip : Reaches last
          (skip >>= fun _ => pure ⟨.documentStart, t.start, mark.stop⟩ : Parse Event)
          { g₂ with stack := .documentEnd :: g₂.stack, expect := .content } :=
        careful_skip h₂ ht' (by simp [not_not.mp hk]) fun hts => .pure hts
      exact hstarted ⟨hskip.problem, hskip.after⟩

/-! ## Steps -/

/-- One step of the machine behind the start of the stream. -/
theorem careful_step (hg : Reach last g.tokens) (hs : g.expect ≠ .stream) :
    Careful step g fun r g' => ∀ e ∈ r, e.kind ≠ .streamEnd → Reach last g'.tokens := by
  have hsome : ∀ {x : Parse Event},
      Careful x g (fun e g' => e.kind ≠ .streamEnd → Reach last g'.tokens) →
      Careful (some <$> x) g fun r g' => ∀ e ∈ r, e.kind ≠ .streamEnd → Reach last g'.tokens := by
    intro x hx
    rw [map_eq_pure_bind]
    exact hx.bind fun e g' h => .pure fun e' he' => by cases he'; exact h
  have hreaches : ∀ {x : Parse Event}, Reaches last x g →
      Careful (some <$> x) g fun r g' => ∀ e ∈ r, e.kind ≠ .streamEnd → Reach last g'.tokens :=
    fun hx => hsome (hx.imp fun _ _ h _ => h)
  unfold step
  refine .bind (p := fun g₁ g' => g₁ = g ∧ g' = g) ⟨(fun h => by cases h),
    fun _ _ h => by cases h; exact ⟨rfl, rfl⟩⟩ ?_
  rintro _ _ ⟨rfl, rfl⟩
  split
  case h_1 he => exact absurd he hs
  case h_2 bare _ => exact hsome (careful_document bare hg)
  case h_3 => exact hreaches (reaches_content hg)
  case h_4 => exact hreaches (reaches_documentEnd hg)
  case h_5 => exact hreaches (reaches_node hg)
  case h_6 began _ => exact hreaches (reaches_blockEntry began hg)
  case h_7 => exact hreaches (reaches_indentlessEntry hg)
  case h_8 began _ => exact hreaches (reaches_blockKey began hg)
  case h_9 began _ => exact hreaches (reaches_blockValue began hg)
  case h_10 first began _ => exact hreaches (reaches_flowEntry first began hg)
  case h_11 began _ => exact hreaches (reaches_pairKey began hg)
  case h_12 began _ => exact hreaches (reaches_pairValue began hg)
  case h_13 began _ => exact hreaches (reaches_pairEnd began hg)
  case h_14 first began _ => exact hreaches (reaches_flowKey first began hg)
  case h_15 began _ => exact hreaches (reaches_flowValue began hg)
  case h_16 began _ => exact hreaches (reaches_flowNoValue began hg)
  case h_17 => exact .pure (by simp)

end Nodes

end Parse

/-! ## Runs -/

namespace Grammar

open Tokens (Reach)

/-- A run that is long enough ends with a problem of the grammar, or with the end of the stream. -/
theorem run_whole {last : Token} : (fuel : Nat) → (g : Grammar) → (acc : List Event) → g.Balanced →
    Reach last g.tokens → g.expect ≠ .stream → g.expect ≠ .nothing → g.weight < fuel →
      (∀ e ∈ acc, e.kind ≠ .streamEnd) → (∃ events p, run fuel g acc = (events, some (some p))) ∨
        ∃ events, run fuel g acc = (⟨.streamEnd, last.start, last.stop⟩ :: events, none) ∧
          ∀ e ∈ events, e.kind ≠ .streamEnd
  | 0, _, _, _, _, _, _, hf, _ => absurd hf (Nat.not_lt_zero _)
  | fuel + 1, g, acc, hb, hg, hs, hn, hf, hacc => by
      -- the weight falls with each event, so the fuel lasts until the stream ends
      have hc := Parse.careful_step hg hs
      cases h : Parse.step g with
      | error problem =>
          obtain ⟨p, rfl⟩ :=
            Option.ne_none_iff_exists'.mp fun hnone : problem = none => hc.problem (hnone ▸ h)
          exact Or.inl ⟨acc, p, by rw [run, h]⟩
      | ok r =>
          obtain ⟨e, g'⟩ := r
          cases e with
          | none => exact absurd (nothing_of_step h) hn
          | some e =>
              have hm := Parse.moves_step h
              have hw := hm.weight
              have hrun : run (fuel + 1) g acc = run fuel g' (e :: acc) := by rw [run, h]
              rw [hrun]
              by_cases he : e.kind = .streamEnd
              · have hn' := hm.ending he
                obtain ⟨t, ht, hk, heq⟩ := hm.ended hb hn'
                rw [heq, hg.eq_last ht hk]
                refine Or.inr ⟨acc, ?_, hacc⟩
                cases fuel with
                | zero => rfl
                | succ fuel => rw [run, step_nothing hn']
              · refine run_whole fuel g' (e :: acc) (hm.balanced hb) (hc.after _ _ h e rfl he)
                  (hm.begun hb) (fun hn' => he ?_) (by omega) ?_
                · obtain ⟨_, _, _, heq⟩ := hm.ended hb hn'
                  rw [heq]
                · exact List.forall_mem_cons.mpr ⟨he, hacc⟩

end Grammar

/-- The events of a whole text end with the end of the stream, or a problem of the grammar cuts them
off. -/
theorem Events.whole_ofTokens {t : Tokens} {first last : Token} {ts : List Token}
    (ht : t.list = first :: ts)
    (h : Tokens.Reach last ts) (hp : (Events.ofTokens t).problem = none) :
    ∃ events, (Events.ofTokens t).list = events ++ [⟨.streamEnd, last.start, last.stop⟩] ∧
      ∀ e ∈ events, e.kind ≠ .streamEnd := by
  have hstep : Parse.step (.ofTokens t.list) =
      .ok (some ⟨.streamStart, first.start, first.start⟩, ⟨ts, .document true, [], []⟩) := by
    rw [ht]
    rfl
  have hrun := Grammar.run_whole (4 * t.list.length + 7) ⟨ts, .document true, [], []⟩
    [⟨.streamStart, first.start, first.start⟩] rfl h (by simp) (by simp)
    (by simp only [Grammar.weight, Grammar.load, Expect.weight, Expect.weights, ht,
      List.length_cons]; omega) (by simp)
  unfold Events.ofTokens at hp ⊢
  rw [Grammar.run, hstep] at hp ⊢
  simp only at hp ⊢
  rcases hrun with ⟨events, p, hrun⟩ | ⟨events, hrun, he⟩
  · rw [hrun] at hp
    cases hp
  · rw [hrun]
    exact ⟨events.reverse, by simp, fun e hm => he e (List.mem_reverse.mp hm)⟩

end BootConfig.Yaml
