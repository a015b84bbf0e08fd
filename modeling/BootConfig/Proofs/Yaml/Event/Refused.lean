import BootConfig.Proofs.Yaml.Event.Progress
import BootConfig.Proofs.Yaml.Event.Spelled

/-!
# Keys that are not recognised

A key in whose text a line ends, or whose colon is too far away, is taken for an entry without a
value, and its colon is refused.
-/

namespace BootConfig.Yaml

open Steps
open Yaml.Lex (IsSimple)
open Parse (Opens)

variable {input : ByteArray}

namespace Grammar

/-- More steps than the bound change nothing. -/
theorem run_more : (fuel fuel' : Nat) → {g : Grammar} → {acc : List Event} → g.weight < fuel →
    fuel ≤ fuel' → run fuel' g acc = run fuel g acc
  | 0, _, _, _, h, _ => absurd h (Nat.not_lt_zero _)
  | _ + 1, 0, _, _, _, h => absurd h (by omega)
  | fuel + 1, fuel' + 1, g, acc, h, hle => by
      rw [run, run]
      cases hs : Parse.step g with
      | error p => rfl
      | ok r =>
          obtain ⟨e, g'⟩ := r
          cases e with
          | none => rfl
          | some e =>
              have hw := (Parse.moves_step hs).weight
              exact run_more fuel fuel' (by omega) (by omega)

/-- A long enough run comes to a problem of the grammar's own. -/
def Stuck (g : Grammar) : Prop := ∃ n, ∀ fuel acc, ∃ p, (run (n + fuel) g acc).2 = some (some p)

theorem Stuck.of_error {g : Grammar} {p : Problem} (h : Parse.step g = .error (some p)) : Stuck g :=
  ⟨1, fun fuel acc => ⟨p, by rw [Nat.add_comm, run, h]⟩⟩

theorem Stuck.of_finds {g g' : Grammar} {events : List Event} (h : Finds g g' events)
    (hs : Stuck g') : Stuck g := by
  obtain ⟨n, hs⟩ := hs
  refine ⟨events.length + n, fun fuel acc => ?_⟩
  rw [Nat.add_assoc, h]
  exact hs fuel _

theorem Stuck.of_step {g g' : Grammar} {e : Event} (h : Parse.step g = .ok (some e, g'))
    (hs : Stuck g') : Stuck g :=
  .of_finds (.of_step h (.refl g')) hs

end Grammar

open Grammar (Stuck)

/-! ## Trees -/

/-- A node within which the grammar gets stuck. -/
def Sticks (tokens : List Token) : Prop :=
  ∀ inBlock rest expect stack handles,
    ∃ e g, Parse.node inBlock false ⟨tokens ++ rest, expect, stack, handles⟩ = .ok (e, g) ∧ Stuck g

theorem Sticks.step {tokens : List Token} (h : Sticks tokens) {g : Grammar} {rest : List Token}
    (expect : Expect) {stack : List Expect} {handles : Handles}
    (hs : Parse.step g =
      (some <$> Parse.node false false) ⟨tokens ++ rest, expect, stack, handles⟩) : Stuck g := by
  obtain ⟨e, g', hn, hstuck⟩ := h false rest expect stack handles
  exact .of_step (by rw [hs, map_apply, hn]) hstuck

/-- The colon of a key that was taken for an entry without a value. -/
theorem stuck_colon {first : Bool} {commas m : List Token} {key colon : Token} {text : String}
    (hc : Separates first commas) (hk : key.kind = .scalar .doubleQuoted text)
    (hcolon : colon.kind = .value) (began : Mark) (stack : List Expect) (handles : Handles) :
      Stuck ⟨commas ++ key :: colon :: m, .flowKey first began, stack, handles⟩ := by
  have hkey : Parse.step ⟨commas ++ key :: colon :: m, .flowKey first began, stack, handles⟩ =
      .ok (some ⟨.scalar .none .doubleQuoted text, key.start, key.stop⟩,
      ⟨colon :: m, .flowNoValue began, stack, handles⟩) := by
    simp only [Parse.step, get_bind]
    rw [map_apply, Parse.flowKey_node hc (.scalar _ _ hk), Parse.node_scalar _ hk]
  have hnone : Parse.step ⟨colon :: m, .flowNoValue began, stack, handles⟩ =
      .ok (some (.missing colon.start), ⟨colon :: m, .flowKey false began, stack, handles⟩) := by
    simp [Parse.step, Parse.flowNoValue, Parse.noNode, bind_apply, map_apply]
  have hstuck : Parse.step ⟨colon :: m, .flowKey false began, stack, handles⟩ =
      .error (some (.malformed .missingMappingComma colon.start (some (.flowMapping, began)))) := by
    simp [Parse.step, Parse.flowKey, Parse.fail, bind_apply, map_apply, hcolon]
  exact .of_step hkey (.of_step hnone (.of_error hstuck))

mutual

theorem sticks_node : {t t' : Tree} → {tokens : List Token} → Spells input t t' tokens →
    ¬t.AllNames IsSimple → Sticks tokens
  | _, _, _, .scalar _ ht, hn => absurd (ht _) hn
  | _, _, _, .seq ho h _, hn => fun inBlock rest _ stack handles =>
      ⟨_, _, Parse.node_sequence inBlock ho, by simpa using stuck_items h hn _ _ stack handles⟩
  | _, _, _, .map ho h _, hn => fun inBlock rest _ stack handles =>
      ⟨_, _, Parse.node_mapping inBlock ho, by simpa using stuck_entries h hn _ _ stack handles⟩

theorem stuck_items : {first : Bool} → {ts ts' : List Tree} → {tokens : List Token} →
    SpellsItems input first ts ts' tokens → ¬Tree.AllNamesItems IsSimple ts →
    ∀ rest began stack handles,
    Stuck ⟨tokens ++ rest, .flowEntry first began, stack, handles⟩
  | _, _, _, _, .nil, hn, _, _, _, _ => absurd trivial hn
  | first, t :: ts, _, _, @SpellsItems.cons _ _ _ _ _ _ commas _ tokens' hc h hs, hn, rest, began,
      stack, handles => by
      obtain ⟨token, more, htokens, ho⟩ := h.opens
      have hstep : Parse.step
            ⟨commas ++ (token :: more ++ tokens') ++ rest, .flowEntry first began, stack, handles⟩ =
          (some <$> Parse.node false false) ⟨token :: more ++ (tokens' ++ rest),
            .flowEntry first began, .flowEntry false began :: stack, handles⟩ := by
        simp only [Parse.step, get_bind, List.cons_append, List.append_assoc]
        rw [map_apply, map_apply, Parse.flowEntry_node hc ho]
      by_cases hnt : t.AllNames IsSimple
      · obtain ⟨e, events, items, _, _, hp⟩ := find_node h hnt
        rw [htokens] at hp ⊢
        exact .of_finds (hp.step (.flowEntry first began) hstep)
          (stuck_items hs (fun hns => hn ⟨hnt, hns⟩) rest began stack handles)
      · have hsticks := sticks_node h hnt
        rw [htokens] at hsticks ⊢
        exact hsticks.step (.flowEntry first began) hstep

theorem stuck_entries : {first : Bool} → {es es' : Entries} → {tokens : List Token} →
    SpellsEntries input first es es' tokens → ¬Tree.AllNamesEntries IsSimple es →
    ∀ rest began stack handles,
    Stuck ⟨tokens ++ rest, .flowKey first began, stack, handles⟩
  | _, _, _, _, .nil, hn, _, _, _, _ => absurd trivial hn
  | first, _, _, _,
      @SpellsEntries.cons _ _ name _ v _ es _ key colon commas keys tokens tokens' hc hkeys
        ⟨text, hkey, _⟩ hcolon h hs, hn, rest, began, stack, handles => by
      rcases hkeys with ⟨hsimple, k, rfl, hk⟩ | ⟨_, rfl⟩
      · obtain ⟨token, more, htokens, ho⟩ := h.opens
        have hname : Finds
            ⟨commas ++ ([k] ++ key :: colon :: (tokens ++ tokens')) ++ rest, .flowKey first began,
              stack, handles⟩
            ⟨colon :: tokens ++ (tokens' ++ rest), .flowValue began, stack, handles⟩
            [⟨.scalar .none .doubleQuoted text, key.start, key.stop⟩] := by
          refine .of_step ?_ (.refl _)
          simp only [Parse.step, get_bind, List.nil_append, List.cons_append, List.append_assoc]
          rw [map_apply, Parse.flowKey_key hc hk (.scalar _ _ hkey), Parse.node_scalar _ hkey]
        have hstep : Parse.step
              ⟨colon :: (token :: more) ++ (tokens' ++ rest), .flowValue began, stack, handles⟩ =
            (some <$> Parse.node false false) ⟨token :: more ++ (tokens' ++ rest), .flowValue began,
              .flowKey false began :: stack, handles⟩ := by
          simp only [Parse.step, get_bind, List.cons_append]
          rw [map_apply, map_apply, Parse.flowValue_value hcolon ho]
        refine .of_finds hname ?_
        by_cases hnv : v.AllNames IsSimple
        · obtain ⟨e, events, items, _, _, hp⟩ := find_node h hnv
          have hns : ¬Tree.AllNamesEntries IsSimple es :=
            fun hns => hn ⟨fun _ h => by cases h; exact hsimple, hnv, hns⟩
          rw [htokens] at hp ⊢
          exact .of_finds (hp.step (.flowValue began) hstep)
            (stuck_entries hs hns rest began stack handles)
        · have hsticks := sticks_node h hnv
          rw [htokens] at hsticks ⊢
          exact hsticks.step (.flowValue began) hstep
      · have := stuck_colon (m := tokens ++ tokens' ++ rest) hc hkey hcolon began stack handles
        simpa using this

end

/-! ## Documents -/

/-- The tokens of a tree with a key that is not recognised are events with a problem. -/
theorem problem_of_names {t t' : Tree} (start stop : Token) {tokens : List Token}
    (h : Spells input t t' tokens) (hn : ¬t.AllNames IsSimple) :
    (Events.ofTokens ⟨start :: (tokens ++ [stop]), none⟩).problem ≠ none := by
  have hsticks := sticks_node h hn
  obtain ⟨token, more, rfl, ho⟩ := h.opens
  obtain ⟨e, g, hnode, hg⟩ := hsticks true [stop] .blockNode [.documentEnd] defaultHandles
  have hstep : Parse.step ⟨token :: more ++ [stop], .blockNode, [.documentEnd], defaultHandles⟩ =
      .ok (some e, g) := by
    simp only [Parse.step, get_bind]
    rw [map_apply, hnode]
  have hstuck : Stuck (.ofTokens (start :: (token :: more ++ [stop]))) :=
    .of_finds (find_begin start ho) (.of_step hstep hg)
  obtain ⟨n, hstuck⟩ := hstuck
  have hw : (Grammar.ofTokens (start :: (token :: more ++ [stop]))).weight <
      4 * (start :: (token :: more ++ [stop])).length + 8 := by
    simp [Grammar.weight, Grammar.load, Grammar.ofTokens, Expect.weight, Expect.weights]
  obtain ⟨p, hp⟩ := hstuck (4 * (start :: (token :: more ++ [stop])).length + 8) []
  rw [Grammar.run_more _ _ hw (Nat.le_add_left _ _)] at hp
  unfold Events.ofTokens
  generalize Grammar.run _ _ [] = r at hp ⊢
  obtain ⟨events, problem⟩ := r
  cases hp
  simp

end BootConfig.Yaml
