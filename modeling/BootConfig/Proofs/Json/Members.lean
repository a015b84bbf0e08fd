import BootConfig.Config.Files
import BootConfig.Proofs.Json.ReadBack
import BootConfig.Proofs.Tree.Entries

/-!
# Members of images

A name that no boolean, no number and no tag is spelled like belongs to members of text keys only,
so that look-up in the image of a mapping finds the image of what look-up in the mapping finds.
-/

namespace BootConfig.Json

/-- A name that only a text key becomes. -/
def isWord (name : String) : Bool :=
  match name.toList with
  | [] => false
  | c :: _ => !startsNumber c && c != '!' && name != "true" && name != "false"

theorem nameOf_word {name : String} {k : Tree} (hw : isWord name = true) (h : nameOf k = name) :
    k = .str name := by
  subst h
  have hne : nameOf k ≠ "" := by
    intro h
    rw [h] at hw
    cases hw
  have hnumber : ∀ {c cs}, (nameOf k).toList = c :: cs → startsNumber c = true → False := by
    intro c cs h hc
    simp [isWord, h, hc] at hw
  cases k with
  | str text => rfl
  | bool b => cases b <;> cases hw
  | int n =>
      obtain ⟨c, cs, h, hc⟩ := startsNumber_intText n []
      rw [List.append_nil] at h
      exact (hnumber h hc).elim
  | float x =>
      cases hx : x.isFinite with
      | true =>
          obtain ⟨c, cs, h, hc⟩ := startsNumber_text hx []
          rw [List.append_nil, show x.text = nameOf (.float x) by simp [nameOf, keyName, hx]] at h
          exact (hnumber h hc).elim
      | false => exact absurd (by simp [nameOf, keyName, hx]) hne
  | _ => exact absurd rfl hne

/-! ## Look-up -/

variable {name : String} {es : Entries}

theorem hasMember_image (hw : isWord name = true) {value : Value}
    (h : (image (.map es)).HasMember name value) : ∃ t, (.str name, t) ∈ es ∧ image t = value := by
  simp only [image, Value.HasMember] at h
  induction es with
  | nil => cases h
  | cons e es ih =>
      obtain ⟨k, v⟩ := e
      rcases List.mem_cons.mp h with he | h
      · obtain ⟨hk, hv⟩ := Prod.mk.inj he
        exact ⟨v, by rw [nameOf_word hw hk.symm]; simp, hv.symm⟩
      · obtain ⟨t, ht, hv⟩ := ih h
        exact ⟨t, List.mem_cons_of_mem _ ht, hv⟩

theorem member?_image (hw : isWord name = true) :
    (image (.map es)).member? name = (es.find? (.str name)).map image := by
  simp only [image, Value.member?]
  induction es with
  | nil => rfl
  | cons e es ih =>
      obtain ⟨k, v⟩ := e
      simp only [imageEntries, List.find?_cons, Entries.find?]
      cases hk : k.same (.str name) with
      | true =>
          rw [Tree.same_str_iff.mp hk]
          simp [nameOf, keyName]
      | false =>
          have hne : nameOf k ≠ name := fun h => by
            rw [nameOf_word hw h, Tree.same_str_iff.mpr rfl] at hk
            cases hk
          simp [hne, ih]

theorem member?_image_tree (hw : isWord name = true) (t : Tree) :
    (image t).member? name = (t.get? name).map image := by
  cases t with
  | map es => exact member?_image hw
  | tagged tag value =>
      have hne : tagMember tag ≠ name := by
        rintro rfl
        simp [isWord, tagMember] at hw
      simp [image, Value.member?, Tree.get?, hne]
  | float x =>
      simp only [image]
      split <;> rfl
  | _ => rfl

theorem imageItems_eq_map (ts : List Tree) : imageItems ts = ts.map image := by
  induction ts with
  | nil => rfl
  | cons t ts ih => rw [imageItems, ih, List.map_cons]

theorem item?_image (index : Nat) (t : Tree) :
    (image t).item? index = (t.item? index).map image := by
  cases t with
  | seq ts => simp [image, Value.item?, Tree.item?, imageItems_eq_map]
  | float x =>
      simp only [image]
      split <;> rfl
  | _ => rfl

theorem file?_image (index : Nat) (document : Tree) :
    (image document).file? index = (document.file? index).map image := by
  simp only [Value.file?, Tree.file?, member?_image_tree (show isWord "storage" = true from rfl)]
  cases document.get? "storage" with
  | none => rfl
  | some storage =>
      simp only [Option.map_some, Option.bind_eq_bind, Option.bind_some,
        member?_image_tree (show isWord "files" = true from rfl)]
      cases storage.get? "files" with
      | none => rfl
      | some files => exact item?_image index files

theorem source?_image (entry : Tree) :
    (image entry).source? = ((entry.get? "contents").bind (·.get? "source")).map image := by
  simp only [Value.source?, member?_image_tree (show isWord "contents" = true from rfl)]
  cases entry.get? "contents" with
  | none => rfl
  | some contents => exact member?_image_tree rfl contents

/-! ## Changed members -/

/-- Changing a member where only its image differs is no change. -/
theorem update_adjust {change : Value → Value} {v w : Tree} (hf : es.find? (.str name) = some v)
    (hc : change (image w) = change (image v)) :
    (image (.map (es.adjust (.str name) w))).update name change =
    (image (.map es)).update name change := by
  simp only [image, Value.update]
  induction es with
  | nil => cases hf
  | cons e es ih =>
      obtain ⟨k, u⟩ := e
      simp only [Entries.find?] at hf
      simp only [Entries.adjust]
      cases hk : k.same (.str name) with
      | true =>
          rw [hk] at hf
          cases hf
          rw [Tree.same_str_iff.mp hk]
          simp [imageEntries, nameOf, keyName, hc]
      | false =>
          rw [hk] at hf
          have h := ih hf
          simp only [Value.object.injEq] at h
          simp [imageEntries, h]

end BootConfig.Json
