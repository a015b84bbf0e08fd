import BootConfig.Config.Rewrite

/-!
# The walk to the file entries

The nodes that embedding looks at, in order, each with the kind that it has to be of. Where a name
is missing, nothing behind it is looked at.
-/

namespace BootConfig

/-- Where a node is looked at. -/
inductive Place where
  | root
  | storage
  | files
  | entry (index : Nat)
  | contents (index : Nat)
  | inline (index : Nat)

namespace Place

def path : Place → String
  | root => "document root"
  | storage => "storage"
  | files => "storage.files"
  | entry index => "storage.files[" ++ Digits.decimal index ++ "]"
  | contents index => "storage.files[" ++ Digits.decimal index ++ "].contents"
  | inline index => "storage.files[" ++ Digits.decimal index ++ "].contents.inline"

/-- The kind of node that is required. -/
def required : Place → String
  | files => "sequence"
  | inline _ => "string"
  | _ => "mapping"

/-- The number of file entries in front. -/
def passed : Place → Nat
  | entry index | contents index | inline index => index
  | _ => 0

end Place

structure Visit where
  place : Place
  node : Tree

namespace Visit

/-- Whether the node is of the kind that is required. -/
def fits (v : Visit) : Bool := v.node.kind == v.place.required

def fault (v : Visit) : ShapeFault := ⟨v.place.path, v.place.required, v.node.kind⟩

/-- The first node of another kind. -/
def misfit? (visits : List Visit) : Option Visit := visits.find? (!·.fits)

end Visit

/-- A node is looked at if it is there. -/
def Place.visit (place : Place) (node : Option Tree) : List Visit :=
  (node.map (Visit.mk place)).toList

namespace Tree

/-- The nodes of a file entry. -/
def entryVisits (index : Nat) (entry : Tree) : List Visit :=
  (Place.entry index).visit (some entry) ++ (Place.contents index).visit (entry.get? "contents") ++
    (Place.inline index).visit entry.inline?

/-- The nodes of file entries, the first of which has the given index. -/
def entriesVisits (index : Nat) (entries : List Tree) : List Visit :=
  (entries.zipIdx index).flatMap fun (entry, index) => entryVisits index entry

/-- The nodes of a document. -/
def visits (document : Tree) : List Visit :=
  Place.root.visit (some document) ++ Place.storage.visit (document.get? "storage") ++
    Place.files.visit ((document.get? "storage").bind (·.get? "files")) ++
    entriesVisits 0 document.files

/-- A sequence with its first elements rewritten. -/
def rewriteItems (count : Nat) : Tree → Tree
  | seq items => seq ((items.take count).map rewriteEntry ++ items.drop count)
  | t => t

/-- A document with its first file entries rewritten. -/
def rewriteFirst (count : Nat) (document : Tree) : Tree :=
  document.update "storage" (update "files" (rewriteItems count))

end Tree

end BootConfig
