import BootConfig.Config.Contents
import BootConfig.Config.Files

/-!
# What embedding comes to

What becomes of a file entry, told from what it holds, and the document with all such entries
changed: a list is modified at an index or loses an element, and all else stays where it is.
-/

namespace BootConfig

namespace Entries

/-- Whether the key of an entry is a text. -/
def isNamed (name : String) (e : Tree × Tree) : Bool := e.1.text? == some name

/-- Changes the value with a name where it stands. -/
def update (name : String) (change : Tree → Tree) (es : Entries) : Entries :=
  es.modify (es.findIdx (isNamed name)) fun e => (e.1, change e.2)

/-- Contents with the data URL of their inline text for a source: in the slot of the one that is
there, or else behind all others. -/
def withSource (text : String) (contents : Entries) : Entries :=
  let others := contents.eraseP (isNamed "inline")
  let source := Tree.str (DataUrl.ofText text)
  if others.any (isNamed "source") then update "source" (fun _ => source) others
  else others ++ [(.str "source", source)]

end Entries

namespace Tree

/-- Changes the value with a name, in a mapping. -/
def update (name : String) (change : Tree → Tree) : Tree → Tree
  | map entries => map (Entries.update name change entries)
  | t => t

/-- The file entries of a document; there are none without `storage` or `files`. -/
def files (document : Tree) : List Tree :=
  match (document.get? "storage").bind (·.get? "files") with
  | some (seq items) => items
  | _ => []

/-- The inline text of a file entry. -/
def inlineText? (entry : Tree) : Option String := entry.inline?.bind text?

/-- A file entry afterwards. -/
def rewriteEntry (entry : Tree) : Tree :=
  match entry.inlineText? with
  | some text =>
    entry.update "contents" fun
      | map contents => map (Entries.withSource text contents)
      | t => t
  | none => entry

/-- A document with all its file entries rewritten. -/
def rewriteFiles (document : Tree) : Tree :=
  document.update "storage" (update "files" fun
    | seq items => seq (items.map rewriteEntry)
    | t => t)

/-- What becomes of a file entry, unless its shape is a fault. -/
def change? (entry : Tree) : Option Contents.Change :=
  match entry with
  | map fields =>
    match Entries.find? (.str "contents") fields with
    | none => some .noContents
    | some (map contents) =>
      match Entries.find? (.str "inline") contents with
      | none => some .noInline
      | some (str _) => some .replaced
      | some _ => none
    | some _ => none
  | _ => none

/-- What becomes of the file entries in front of the first that is a fault. -/
def changes (document : Tree) : List Contents.Change :=
  (document.files.takeWhile (·.change?.isSome)).filterMap change?

end Tree

end BootConfig
