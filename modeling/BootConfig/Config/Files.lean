import BootConfig.Json.Value
import BootConfig.Tree.Parts

/-!
# The files of a configuration

Where a document and a JSON value hold the entries of `storage.files`, and what such a value is like
when no inline text is left in it.
-/

namespace BootConfig

namespace Tree

/-- The file entry with an index. -/
def file? (index : Nat) (document : Tree) : Option Tree := do
  (← (← document.get? "storage").get? "files").item? index

/-- The inline contents of a file entry. -/
def inline? (entry : Tree) : Option Tree := do
  (← entry.get? "contents").get? "inline"

end Tree

namespace Json.Value

def file? (index : Nat) (value : Value) : Option Value := do
  (← (← value.member? "storage").member? "files").item? index

/-- The source of the contents of a file entry. -/
def source? (entry : Value) : Option Value := do
  (← entry.member? "contents").member? "source"

/-- A value with `null` for the entries of `storage.files`. -/
def withoutFiles : Value → Value := update "storage" (update "files" fun _ => .null)

/-- A file entry whose contents have no member `inline`. -/
structure EntryOk (entry : Value) : Prop where
  object : entry.IsObject
  contents : ∀ contents, entry.HasMember "contents" contents →
    contents.IsObject ∧ ∀ inline, ¬ contents.HasMember "inline" inline

/-- A configuration whose files are objects without inline contents. -/
structure FilesOk (value : Value) : Prop where
  object : value.IsObject
  storage : ∀ storage, value.HasMember "storage" storage → storage.IsObject
  files : ∀ storage files, value.HasMember "storage" storage → storage.HasMember "files" files →
    ∃ entries, files = .array entries ∧ ∀ entry ∈ entries, EntryOk entry

end Json.Value

end BootConfig
