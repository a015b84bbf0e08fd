import BootConfig.Proofs.Json.Members
import BootConfig.Proofs.Yaml.Floats
import BootConfig.Proofs.Yaml.Scalars
import BootConfig.Proofs.Yaml.Token.Spelled

/-!
# Standard form

A tree is written as another one whose keys are texts, without tags and with finite floats only. It
is the tree that the output itself says.
-/

namespace BootConfig

open Json

namespace Tree

mutual

/-- The tree with names for keys, with mappings of one entry for tags, and with null where a float
is not finite. -/
def standard : Tree → Tree
  | .float x => if x.isFinite then .float x else .null
  | .seq items => .seq (standardItems items)
  | .map entries => .map (standardEntries entries)
  | .tagged name value => .map [(.str (tagMember name), standard value)]
  | t => t

def standardItems : List Tree → List Tree
  | [] => []
  | t :: ts => standard t :: standardItems ts

def standardEntries : Entries → Entries
  | [] => []
  | (k, v) :: es => (.str (nameOf k), standard v) :: standardEntries es

end

/-! ## The same text and image -/

mutual

theorem write_standard (level : Nat) : (t : Tree) → (tail : List Char) →
    write level t.standard tail = write level t tail
  | .null, _ | .bool _, _ | .int _, _ | .str _, _ => rfl
  | .float x, tail => by
      rw [standard]
      cases hx : x.isFinite <;> simp [write, hx]
  | .seq [], _ => rfl
  | .seq (t :: ts), tail => by
      simp only [standard, standardItems, write, write_standard, writeItems_standard]
  | .map [], _ => rfl
  | .map ((k, v) :: es), tail => by
      simp only [standard, standardEntries, write, write_standard, writeEntries_standard]
      rfl
  | .tagged name value, tail => by
      simp only [standard, write, writeEntries, write_standard]
      rfl

theorem writeItems_standard (level : Nat) : (ts : List Tree) → (tail : List Char) →
    writeItems level (standardItems ts) tail = writeItems level ts tail
  | [], _ => rfl
  | t :: ts, tail => by simp only [standardItems, writeItems, write_standard, writeItems_standard]

theorem writeEntries_standard (level : Nat) : (es : Entries) → (tail : List Char) →
    writeEntries level (standardEntries es) tail = writeEntries level es tail
  | [], _ => rfl
  | (k, v) :: es, tail => by
      simp only [standardEntries, writeEntries, write_standard, writeEntries_standard]
      rfl

end

mutual

theorem image_standard : (t : Tree) → image t.standard = image t
  | .null | .bool _ | .int _ | .str _ => rfl
  | .float x => by
      rw [standard]
      cases hx : x.isFinite <;> simp [image, hx]
  | .seq items => congrArg Value.array (imageItems_standard items)
  | .map es => congrArg Value.object (imageEntries_standard es)
  | .tagged name value => by
      simp only [standard, image, imageEntries, image_standard]
      rfl

theorem imageItems_standard : (ts : List Tree) → imageItems (standardItems ts) = imageItems ts
  | [] => rfl
  | t :: ts => by simp only [standardItems, imageItems, image_standard, imageItems_standard]

theorem imageEntries_standard : (es : Entries) → imageEntries (standardEntries es) = imageEntries es
  | [] => rfl
  | (k, v) :: es => by
      simp only [standardEntries, imageEntries, image_standard, imageEntries_standard]
      rfl

end

/-! ## Documents that are read -/

open Yaml (Meant)

/-- A tree of scalars that can be read. -/
abbrev FromScalars (t : Tree) : Prop := t.All Meant fun _ => True

theorem standard_of_canonical {x : Double} (h : x.IsCanonical) (hx : x.isFinite = true) :
    Standard (.float x) := by
  cases x with
  | finite negative m e => exact ⟨rfl, Yaml.plain?_float h⟩
  | _ => cases hx

mutual

theorem standard_standard : (t : Tree) → t.FromScalars → t.standard.Standard
  | .null, _ | .bool _, _ | .str _, _ => trivial
  | .int _, .int h => h
  | .float x, .float h => by
      rw [standard]
      cases hx : x.isFinite with
      | true => exact standard_of_canonical h hx
      | false => trivial
  | .seq items, h => standardItems_standard items h
  | .map es, h => standardEntries_standard es h.2
  | .tagged name value, h => ⟨⟨_, rfl⟩, standard_standard value h, trivial⟩

theorem standardItems_standard : (ts : List Tree) → AllItems Meant (fun _ => True) ts →
    StandardItems (standardItems ts)
  | [], _ => trivial
  | t :: ts, h => ⟨standard_standard t h.1, standardItems_standard ts h.2⟩

theorem standardEntries_standard : (es : Entries) → AllEntries Meant (fun _ => True) es →
    StandardEntries (standardEntries es)
  | [], _ => trivial
  | (_, v) :: es, h => ⟨⟨_, rfl⟩, standard_standard v h.1, standardEntries_standard es h.2⟩

end

end Tree

end BootConfig
