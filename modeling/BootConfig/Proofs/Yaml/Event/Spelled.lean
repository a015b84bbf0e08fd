import BootConfig.Proofs.Yaml.Event.Flow

/-!
# The events of a written tree

From the tokens of a tree whose keys are all recognised, the grammar finds the events of the tree,
and a document of nothing else has its items.
-/

namespace BootConfig.Yaml

open Steps
open Yaml.Lex (IsSimple)
open Parse (Opens)

variable {input : ByteArray}

/-! ## Trees -/

theorem Spells.opens {t t' : Tree} {tokens : List Token} (h : Spells input t t' tokens) :
    ∃ token more, tokens = token :: more ∧ Opens token := by
  cases h with
  | scalar h _ =>
      obtain ⟨text, hk, _⟩ := h
      exact ⟨_, _, rfl, .scalar _ _ hk⟩
  | seq ho _ _ => exact ⟨_, _, rfl, .sequence ho⟩
  | map ho _ _ => exact ⟨_, _, rfl, .mapping ho⟩

/-- A node passes its tokens and leaves what was expected behind it. -/
def Passes (tokens : List Token) (e : Event) (events : List Event) : Prop :=
  ∀ inBlock rest expect x stack handles, ∃ g,
    Parse.node inBlock false ⟨tokens ++ rest, expect, x :: stack, handles⟩ = .ok (e, g) ∧
    Finds g ⟨rest, x, stack, handles⟩ events

/-- A step that begins a node with the tokens ahead. -/
theorem Passes.step {tokens : List Token} {e : Event} {events : List Event}
    (h : Passes tokens e events) {g : Grammar}
    {rest : List Token} (expect : Expect) {x : Expect} {stack : List Expect} {handles : Handles}
    (hs : Parse.step g =
      (some <$> Parse.node false false) ⟨tokens ++ rest, expect, x :: stack, handles⟩) :
    Finds g ⟨rest, x, stack, handles⟩ (e :: events) := by
  obtain ⟨g', hn, hf⟩ := h false rest expect x stack handles
  exact .of_step (by rw [hs, map_apply, hn]) hf

mutual

theorem find_node : {t t' : Tree} → {tokens : List Token} → Spells input t t' tokens →
    t.AllNames IsSimple →
    ∃ e events items, Tells (e :: events) tokens items ∧ Shows input t' items ∧
    Passes tokens e events
  | _, _, _, @Spells.scalar _ _ _ _ token ⟨text, hk, hr⟩ _, _ =>
      ⟨_, [], _, .single rfl token, .scalar token.start hr, fun inBlock _ _ _ _ _ =>
        ⟨_, Parse.node_scalar inBlock hk, .refl _⟩⟩
  | _, _, _, @Spells.seq _ _ _ start stop _ ho h hc, hn => by
      obtain ⟨events, items, ht, hs, hf⟩ := find_items h hn
      refine ⟨⟨.sequenceStart .none, start.start, start.stop⟩,
        events ++ [⟨.sequenceEnd, stop.start, stop.stop⟩], _, ?_,
        .seq start.start stop.start hs, fun inBlock rest _ x stack handles =>
          ⟨_, Parse.node_sequence inBlock ho, ?_⟩⟩
      · exact (Tells.single rfl start).append (ht.append (.single rfl stop))
      · simpa using hf stop rest start.start x stack handles hc
  | _, _, _, @Spells.map _ _ _ start stop _ ho h hc, hn => by
      obtain ⟨events, items, ht, hs, hf⟩ := find_entries h hn
      refine ⟨⟨.mappingStart .none, start.start, start.stop⟩,
        events ++ [⟨.mappingEnd, stop.start, stop.stop⟩], _, ?_,
        .map start.start stop.start hs, fun inBlock rest _ x stack handles =>
          ⟨_, Parse.node_mapping inBlock ho, ?_⟩⟩
      · exact (Tells.single rfl start).append (ht.append (.single rfl stop))
      · simpa using hf stop rest start.start x stack handles hc

theorem find_items : {first : Bool} → {ts ts' : List Tree} → {tokens : List Token} →
    SpellsItems input first ts ts' tokens → Tree.AllNamesItems IsSimple ts →
    ∃ events items, Tells events tokens items ∧ ShowsItems input ts' items ∧
      ∀ (stop : Token) rest began x stack handles, stop.kind = .flowSequenceEnd →
        Finds ⟨tokens ++ stop :: rest, .flowEntry first began, x :: stack, handles⟩
          ⟨rest, x, stack, handles⟩ (events ++ [⟨.sequenceEnd, stop.start, stop.stop⟩])
  | _, _, _, _, .nil, _ =>
      ⟨[], [], ⟨rfl, Nat.le_refl _⟩, .nil, fun _ _ _ _ _ _ hc =>
        .of_step (by
          simp only [Parse.step, get_bind]
          rw [map_apply, List.nil_append, Parse.flowEntry_end hc]) (.refl _)⟩
  | first, _, _, _, @SpellsItems.cons _ _ _ _ _ _ commas _ tokens' hc h hs, hn => by
      obtain ⟨e, events, items, ht, hshow, hp⟩ := find_node h hn.1
      obtain ⟨events', items', ht', hshow', hf⟩ := find_items hs hn.2
      obtain ⟨token, more, rfl, ho⟩ := h.opens
      refine ⟨e :: events ++ events', items ++ items', (ht.append ht').behind commas,
        .cons hshow hshow', fun stop rest began x stack handles hstop => ?_⟩
      · have hstep : Finds
            ⟨commas ++ (token :: more ++ tokens') ++ stop :: rest, .flowEntry first began,
              x :: stack, handles⟩
            ⟨tokens' ++ stop :: rest, .flowEntry false began, x :: stack, handles⟩
            (e :: events) := by
          refine hp.step (.flowEntry first began) ?_
          simp only [Parse.step, get_bind, List.cons_append, List.append_assoc]
          rw [map_apply, map_apply, Parse.flowEntry_node hc ho]
        rw [List.append_assoc (e :: events)]
        exact hstep.trans (hf stop rest began x stack handles hstop)

theorem find_entries : {first : Bool} → {es es' : Entries} → {tokens : List Token} →
    SpellsEntries input first es es' tokens → Tree.AllNamesEntries IsSimple es →
    ∃ events items, Tells events tokens items ∧ ShowsEntries input es' items ∧
      ∀ (stop : Token) rest began x stack handles, stop.kind = .flowMappingEnd →
        Finds ⟨tokens ++ stop :: rest, .flowKey first began, x :: stack, handles⟩
          ⟨rest, x, stack, handles⟩ (events ++ [⟨.mappingEnd, stop.start, stop.stop⟩])
  | _, _, _, _, .nil, _ =>
      ⟨[], [], ⟨rfl, Nat.le_refl _⟩, .nil, fun _ _ _ _ _ _ hc =>
        .of_step (by
          simp only [Parse.step, get_bind]
          rw [map_apply, List.nil_append, Parse.flowKey_end hc]) (.refl _)⟩
  | first, _, _, _, @SpellsEntries.cons _ _ name _ _ _ _ _ key colon commas keys _ tokens' hc hkeys
      ⟨text, hkey, hr⟩ hcolon h hs, hn => by
      obtain ⟨e, events, items, ht, hshow, hp⟩ := find_node h hn.2.1
      obtain ⟨events', items', ht', hshow', hf⟩ := find_entries hs hn.2.2
      obtain ⟨token, more, rfl, ho⟩ := h.opens
      obtain ⟨k, rfl, hk⟩ : ∃ k, keys = [k] ∧ k.kind = .key := by
        rcases hkeys with ⟨_, hk⟩ | ⟨hnot, _⟩
        · exact hk
        · exact absurd (hn.1 name rfl) hnot
      refine ⟨⟨.scalar .none .doubleQuoted text, key.start, key.stop⟩ ::
        (e :: events ++ events'), _, ?_, .cons key.start hr hshow hshow',
        fun stop rest began x stack handles hstop => ?_⟩
      · exact (((Tells.single rfl key).append ((ht.append ht').behind [colon])).behind [k]).behind
          commas
      · have hname : Finds
            ⟨commas ++ ([k] ++ key :: colon :: (token :: more ++ tokens')) ++ stop :: rest,
              .flowKey first began, x :: stack, handles⟩
            ⟨colon :: token :: more ++ (tokens' ++ stop :: rest), .flowValue began,
              x :: stack, handles⟩
            [⟨.scalar .none .doubleQuoted text, key.start, key.stop⟩] := by
          refine .of_step ?_ (.refl _)
          simp only [Parse.step, get_bind, List.nil_append, List.cons_append, List.append_assoc]
          rw [map_apply, Parse.flowKey_key hc hk (.scalar _ _ hkey), Parse.node_scalar _ hkey]
        have hvalue : Finds
            ⟨colon :: token :: more ++ (tokens' ++ stop :: rest), .flowValue began,
              x :: stack, handles⟩
            ⟨tokens' ++ stop :: rest, .flowKey false began, x :: stack, handles⟩ (e :: events) := by
          refine hp.step (.flowValue began) ?_
          simp only [Parse.step, get_bind, List.cons_append]
          rw [map_apply, map_apply, Parse.flowValue_value hcolon ho]
        have := (hname.trans hvalue).trans (hf stop rest began x stack handles hstop)
        simpa using this

end

/-! ## Documents -/

/-- A text of one document without directives begins with its node. -/
theorem find_begin {token : Token} {more : List Token} (start : Token) (ho : Opens token) :
    Finds (.ofTokens (start :: token :: more))
      ⟨token :: more, .blockNode, [.documentEnd], defaultHandles⟩
      [⟨.streamStart, start.start, start.start⟩, ⟨.documentStart, token.start, token.start⟩] := by
  have hstart : Parse.step (.ofTokens (start :: token :: more)) =
      .ok (some ⟨.streamStart, start.start, start.start⟩,
      ⟨token :: more, .document true, [], []⟩) := by
    simp [Parse.step, Parse.stream, Grammar.ofTokens, bind_apply, map_apply]
  have hdocument : Parse.step ⟨token :: more, .document true, [], []⟩ =
      .ok (some ⟨.documentStart, token.start, token.start⟩,
      ⟨token :: more, .blockNode, [.documentEnd], defaultHandles⟩) := by
    rcases ho with ⟨_, _, h⟩ | h | h <;>
      simp [Parse.step, Parse.document, Parse.setHandles, Parse.directives, Parse.isDirective,
      bind_apply, map_apply, h] <;> rfl
  exact .of_step hstart (.of_step hdocument (.refl _))

/-- The node of the document stands between the start and the end of the stream. -/
theorem find_document {tokens : List Token} {e : Event} {events : List Event} (start : Token)
    {stop : Token} (hp : Passes tokens e events)
    (ho : ∃ token more, tokens = token :: more ∧ Opens token) (hstop : stop.kind = .streamEnd) :
    ∃ first second last final, first.kind = .streamStart ∧ second.kind = .documentStart ∧
      last.kind = .documentEnd ∧ final.kind = .streamEnd ∧
      Finds (.ofTokens (start :: (tokens ++ [stop]))) ⟨[], .nothing, [], []⟩
        (first :: second :: (e :: events ++ [last, final])) := by
  obtain ⟨token, more, rfl, ho⟩ := ho
  refine ⟨⟨.streamStart, start.start, start.start⟩, ⟨.documentStart, token.start, token.start⟩,
    ⟨.documentEnd, stop.start, stop.start⟩, ⟨.streamEnd, stop.start, stop.stop⟩, rfl, rfl,
    rfl, rfl, ?_⟩
  have hnode : Finds ⟨token :: more ++ [stop], .blockNode, [.documentEnd], defaultHandles⟩
      ⟨[stop], .documentEnd, [], defaultHandles⟩ (e :: events) := by
    obtain ⟨g, hn, hf⟩ := hp true [stop] .blockNode .documentEnd [] defaultHandles
    exact .of_step (by simp only [Parse.step, get_bind]; rw [map_apply, hn]) hf
  have hend : Finds ⟨[stop], .documentEnd, [], defaultHandles⟩ ⟨[], .nothing, [], []⟩
      [⟨.documentEnd, stop.start, stop.start⟩, ⟨.streamEnd, stop.start, stop.stop⟩] := by
    have hlast : Parse.step ⟨[stop], .documentEnd, [], defaultHandles⟩ =
        .ok (some ⟨.documentEnd, stop.start, stop.start⟩, ⟨[stop], .document false, [], []⟩) := by
      simp [Parse.step, Parse.documentEnd, bind_apply, map_apply, hstop]
    refine .of_step hlast (.of_step ?_ (.refl _))
    simp [Parse.step, Parse.document, Parse.skipDocumentEnds, bind_apply, map_apply, hstop]
  exact (find_begin start ho).trans (hnode.trans hend)

theorem run_finds {g g' : Grammar} {events : List Event} (h : Finds g g' events)
    (he : g'.expect = .nothing) (fuel : Nat)
    (hf : events.length < fuel) : Grammar.run fuel g [] = (events.reverse, none) := by
  obtain ⟨n, rfl⟩ : ∃ n, fuel = events.length + (n + 1) := ⟨fuel - events.length - 1, by omega⟩
  rw [h, List.append_nil, Grammar.run]
  simp [Parse.step, bind_apply, he]

namespace Document

variable {problem : Option Problem} {p : Partial}

theorem collect_item {e : Event} {i : Item} (h : e.item? = some i) (es : List Event) :
    collect problem (e :: es) p = collect problem es (p.add i.kind i.mark) := by
  unfold Event.item? at h
  split at h <;> rename_i hk <;> cases h <;> simp only [collect, hk] <;> rfl

theorem collect_items {events : List Event} {items : List Item}
    (h : events.map Event.item? = items.map some) (es : List Event) :
    collect problem (events ++ es) p =
      collect problem es
      { p with items := items.reverse ++ p.items, count := p.count + items.length } := by
  induction events generalizing items p with
  | nil =>
      obtain rfl : items = [] := by simpa using h.symm
      rfl
  | cons e events ih =>
      cases items with
      | nil => cases h
      | cons i items =>
          obtain ⟨hi, hs⟩ := List.cons.inj h
          rw [List.cons_append, collect_item hi, ih hs]
          simp [Partial.add, Nat.add_assoc, Nat.add_comm 1]

end Document

/-- A document of one node is the items of the node. -/
theorem document_of_tokens {t t' : Tree} (start : Token) {stop : Token} {tokens : List Token}
    (h : Spells input t t' tokens) (hn : t.AllNames IsSimple) (hstop : stop.kind = .streamEnd) :
    ∃ items, Shows input t' items ∧
      Document.ofEvents (.ofTokens ⟨start :: (tokens ++ [stop]), none⟩) =
        ⟨items, #[], none, false⟩ := by
  obtain ⟨e, events, items, ht, hs, hp⟩ := find_node h hn
  obtain ⟨first, second, last, final, hfirst, hsecond, hlast, hfinal, hf⟩ :=
    find_document start hp h.opens hstop
  refine ⟨items, hs, ?_⟩
  have hl := ht.length
  have hr := run_finds hf rfl (4 * (start :: (tokens ++ [stop])).length + 8) (by
    simp only [List.length_cons, List.length_append, List.length_nil] at hl ⊢
    omega)
  have hev : Events.ofTokens ⟨start :: (tokens ++ [stop]), none⟩ =
      ⟨first :: second :: (e :: events ++ [last, final]), none⟩ := by
    unfold Events.ofTokens
    rw [hr]
    exact congrArg (Events.mk · none) (List.reverse_reverse _)
  rw [hev]
  simp only [Document.ofEvents, Document.collect, hfirst, hsecond]
  rw [Document.collect_items ht.items]
  simp [Document.collect, hlast, Document.continues, hfinal, Document.Partial.finish,
    Document.Partial.empty, Document.Anchors.empty]

end BootConfig.Yaml
