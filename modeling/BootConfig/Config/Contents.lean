import BootConfig.Text.DataUrl
import BootConfig.Tree.Entries

/-!
# Inline file contents

Every entry of `storage.files` whose `contents` hold a text under `inline` gets the data URL of that
text under `source` instead. An entry without `contents` or without `inline` is left as it is; any
other shape is a fault, and the entries in front of it keep their data URLs.
-/

namespace BootConfig

/-- A node of another kind than the one expected at its place. -/
structure ShapeFault where
  path : String
  expected : String
  found : String
deriving DecidableEq

def ShapeFault.message (f : ShapeFault) : String :=
  f.path ++ ": expected " ++ f.expected ++ ", found " ++ f.found

def ShapeFault.ofTree (path expected : String) (found : Tree) : ShapeFault :=
  ⟨path, expected, found.kind⟩

namespace Contents

/-! ## Places -/

def rootPath : String := "document root"
def storagePath : String := "storage"
def filesPath : String := storagePath ++ ".files"
def entryPath (index : Nat) : String :=
  filesPath ++ "[" ++ Digits.decimal index ++ "]"
def contentsPath (index : Nat) : String := entryPath index ++ ".contents"
def inlinePath (index : Nat) : String := contentsPath index ++ ".inline"

def storageKey : Tree := .str "storage"
def filesKey : Tree := .str "files"
def contentsKey : Tree := .str "contents"
def inlineKey : Tree := .str "inline"
def sourceKey : Tree := .str "source"

/-! ## One entry -/

/-- What became of an entry. -/
inductive Change where
  | noContents
  | noInline
  | replaced
deriving DecidableEq

/-- The entries of a mapping, where a mapping is expected. -/
def mapping (path : String) : Tree → Except ShapeFault Entries
  | .map entries => .ok entries
  | other => .error (.ofTree path "mapping" other)

/-- The text goes out and its URL comes in: in the place of an existing source, at the end if there
is none. -/
def replaceInline (text : String) (contents : Entries) : Entries :=
  (contents.put sourceKey (.str (DataUrl.ofText text))).drop inlineKey

/-- Embeds the inline text in the contents of an entry. -/
def embedContents (index : Nat) (contents : Entries) : Except ShapeFault (Change × Entries) :=
  match contents.find? inlineKey with
  | none => .ok (.noInline, contents)
  | some (.str text) => .ok (.replaced, replaceInline text contents)
  | some other => .error (.ofTree (inlinePath index) "string" other)

/-- Embeds the inline text of the file entry with the given index. -/
def embedEntry (index : Nat) (entry : Tree) : Except ShapeFault (Change × Tree) := do
  let fields ← mapping (entryPath index) entry
  match fields.find? contentsKey with
  | none => return (.noContents, entry)
  | some contents =>
    let (change, contents) ← embedContents index (← mapping (contentsPath index) contents)
    return (change, .map (fields.adjust contentsKey (.map contents)))

/-! ## All entries -/

/-- What embedding leaves behind: the value, what became of each entry visited, and the fault that
ended it. -/
structure Outcome (α : Type) where
  value : α
  changes : List Change
  fault : Option ShapeFault

namespace Outcome

variable {α β : Type}

/-- Nothing visited. -/
def unchanged (value : α) : Outcome α := ⟨value, [], none⟩

def failed (value : α) (fault : ShapeFault) : Outcome α := ⟨value, [], some fault⟩

def map (f : α → β) (o : Outcome α) : Outcome β := ⟨f o.value, o.changes, o.fault⟩

/-- The number of entries whose text was replaced. -/
def replaced (o : Outcome α) : Nat := o.changes.countP (· == .replaced)

/-- The number of entries left as they were. -/
def skipped (o : Outcome α) : Nat := o.changes.countP (· != .replaced)

end Outcome

/-- Embeds the inline texts of the entries from the given index on, up to the first fault. -/
def embedFrom (index : Nat) : List Tree → Outcome (List Tree)
  | [] => .unchanged []
  | entry :: rest =>
    match embedEntry index entry with
    | .error fault => .failed (entry :: rest) fault
    | .ok (change, entry) =>
      let o := embedFrom (index + 1) rest
      ⟨entry :: o.value, change :: o.changes, o.fault⟩

/-- Changes the value of a key where it stands; a missing key changes nothing. -/
def within (key : Tree) (change : Tree → Outcome Tree) (entries : Entries) : Outcome Entries :=
  match entries.find? key with
  | none => .unchanged entries
  | some value => (change value).map fun value => entries.adjust key value

def embedFiles : Tree → Outcome Tree
  | .seq items => (embedFrom 0 items).map .seq
  | other => .failed other (.ofTree filesPath "sequence" other)

def embedStorage : Tree → Outcome Tree
  | .map entries => (within filesKey embedFiles entries).map .map
  | other => .failed other (.ofTree storagePath "mapping" other)

/-- Embeds the inline texts of a document as data URLs. -/
def embed : Tree → Outcome Tree
  | .map entries => (within storageKey embedStorage entries).map .map
  | other => .failed other (.ofTree rootPath "mapping" other)

end Contents

end BootConfig
