import BootConfig.Proofs.Yaml.Complete
import BootConfig.Proofs.Yaml.Event.Refused
import BootConfig.Proofs.Yaml.Shown
import BootConfig.Proofs.Yaml.Token.Refused

/-!
# Which output can be read

The text of a standard tree is read just when all its characters may be read, no line in a string
begins with a document mark, each key is written on one line within reach of its colon, and the tree
is not too deep.
-/

namespace BootConfig.Yaml

open Json

/-- A standard tree whose text can be read, and the tree that its text says, entries not yet put
together. -/
structure Readable (t t' : Tree) : Prop where
  allowed : ∀ c ∈ write 0 t ['\n'], isAllowed c = true
  reread : reread? t = some t'
  names : t.AllNames Lex.IsSimple
  depth : t'.depth ≤ maxDepth

theorem readable_of_read {t u : Tree} (hd : t.Standard)
    (h : read (String.ofList (write 0 t ['\n'])) = .ok u) : ∃ t', Readable t t' := by
  have ha := allowed_of_read h
  have htokens := tokens_of_read h
  have hevents := events_of_read h
  rw [String.toList_ofList] at ha htokens hevents
  cases ht : reread? t with
  | none => exact absurd htokens (problem_of_reread? hd ht ha)
  | some t' =>
      obtain ⟨start, tokens, stop, heq, _, hstop, hspell⟩ := tokens_written hd ht ha
      rw [heq] at hevents
      have hn : t.AllNames Lex.IsSimple :=
        Classical.byContradiction fun hn => problem_of_names start stop hspell hn hevents
      refine ⟨t', ha, ht, hn, Nat.le_of_not_lt fun hdeep => ?_⟩
      obtain ⟨items, hs, hdoc⟩ := document_of_tokens start hspell hn hstop
      obtain ⟨f, hf⟩ := Build.root_deep hs hdeep
      unfold read Source.ofText Document.ofText at h
      rw [String.toList_ofList, heq, hdoc, hf] at h
      cases h

/-- What the text of a standard tree is read as. -/
theorem read_written_iff {t u : Tree} (hd : t.Standard) :
    read (String.ofList (write 0 t ['\n'])) = .ok u ↔ ∃ t', Readable t t' ∧ t'.gather = u := by
  constructor
  · intro h
    obtain ⟨t', hr⟩ := readable_of_read hd h
    rw [read_written hd hr.reread hr.names hr.allowed hr.depth] at h
    exact ⟨t', hr, Except.ok.inj h⟩
  · rintro ⟨t', hr, rfl⟩
    exact read_written hd hr.reread hr.names hr.allowed hr.depth

end BootConfig.Yaml
