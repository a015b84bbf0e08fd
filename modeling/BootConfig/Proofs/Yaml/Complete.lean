import BootConfig.Proofs.Yaml.Event.Progress
import BootConfig.Proofs.Yaml.Node
import BootConfig.Proofs.Yaml.Token.Progress

/-!
# Reading to the end

A text that is read as a tree is read to its end: no problem is met anywhere in it, and every
character of it may be read.
-/

namespace BootConfig.Yaml

namespace Document

/-- A problem in front of the end of the stream leaves a document that breaks off or goes on. -/
theorem collect_problem (problem : Problem) {events : List Event}
    (h : ∀ e ∈ events, e.kind ≠ .streamEnd) (p : Partial) :
    (collect (some problem) events p).broken = none →
    (collect (some problem) events p).continued = true := by
  induction events generalizing p with
  | nil => exact fun h => by cases h
  | cons e es ih =>
      obtain ⟨he, hes⟩ := List.forall_mem_cons.mp h
      cases hk : e.kind with
      | streamEnd => exact absurd hk he
      | documentEnd =>
          simp only [collect, hk, Partial.finish]
          intro _
          cases es with
          | nil => rfl
          | cons e' es => simpa [continues] using (List.forall_mem_cons.mp hes).1
      | aliasOf name =>
          simp only [collect, hk]
          split
          · exact ih hes _
          · exact fun h => by cases h
      | _ =>
          simp only [collect, hk]
          exact ih hes _

end Document

theorem events_of_read {text : String} {t : Tree} (h : read text = .ok t) :
    (Events.ofTokens (.ofText text.toList)).problem = none := by
  obtain ⟨hb, hc, _⟩ := Build.root_eq_ok_iff.mp h
  cases hp : (Events.ofTokens (.ofText text.toList)).problem with
  | none => rfl
  | some problem =>
      have hu := (Events.ofTokens_concludes (.ofText text.toList)).2 (by simp [hp])
      have := Document.collect_problem problem hu .empty
      simp only [Source.ofText, Document.ofText, Document.ofEvents, hp] at hb hc
      rw [this hb] at hc
      cases hc

theorem tokens_of_read {text : String} {t : Tree} (h : read text = .ok t) :
    (Tokens.ofText text.toList).problem = none := by
  rcases (Events.ofTokens_concludes _).1 (events_of_read h) with hn | ⟨token, ht, hk⟩
  · exact hn
  · refine Classical.byContradiction fun hp => ?_
    exact (Tokens.ofText_concluded text.toList).2 hp token ht hk

theorem allowed_of_read {text : String} {t : Tree} (h : read text = .ok t) :
    ∀ c ∈ text.toList, isAllowed c = true :=
  (Tokens.ofText_concluded text.toList).1 (tokens_of_read h)

end BootConfig.Yaml
