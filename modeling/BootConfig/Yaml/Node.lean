import BootConfig.Tree.Entries
import BootConfig.Yaml.Fault

/-!
# From documents to trees

Collections are read by recursion, down to a fixed depth; an alias is read as its node again. The
number of aliases that may be followed is bounded by the number of items.
-/

namespace BootConfig.Yaml

/-- The greatest depth of nested collections. -/
def maxDepth : Nat := 128

/-- The items still to be read, and the number of aliases followed. -/
structure Progress where
  rest : List Item
  jumps : Nat

/-- Reading nodes. -/
abbrev Build := StateT Progress (Except Fault)

/-- What all nodes of a document have in common. -/
structure Source where
  input : ByteArray
  document : Document
  size : Nat

namespace Source

def ofText (text : String) : Source :=
  let document := Document.ofText text.toList
  { input := text.toUTF8, document, size := document.items.length }

/-- How many aliases may be followed. -/
def maxJumps (s : Source) : Nat := 100 * s.size

end Source

namespace Build

/-- Reads a node at a place. -/
abbrev Reader := Path → Build Tree

variable (s : Source)

def peek : Build Item := do
  match (← get).rest with
  | i :: _ => return i
  | [] => throw (.ofBreak s.document.broken)

def skip : Build Unit := modify fun p => { p with rest := p.rest.tail }

def next : Build Item := do
  let i ← peek s
  skip
  return i

/-- The elements of a sequence up to its end, behind those read already in reverse. -/
def elements (read : Reader) (path : Path) : Nat → Nat → List Tree → Build (List Tree)
  | 0, _, acc => return acc.reverse
  | fuel + 1, index, acc => do
    match (← peek s).kind with
    | .sequenceEnd | .void =>
      skip
      return acc.reverse
    | _ =>
      let t ← read (path.element index)
      elements read path fuel (index + 1) (t :: acc)

/-- The place of the value of a key. -/
def valuePath (path : Path) : Item.Kind → Path
  | .scalar key => path.member key.text
  | _ => path.unnamed

/-- The entries of a mapping up to its end, put to those read already. -/
def entries (read : Reader) (path : Path) : Nat → Entries → Build Entries
  | 0, acc => return acc
  | fuel + 1, acc => do
    let i ← peek s
    match i.kind with
    | .mappingEnd | .void =>
      skip
      return acc
    | kind =>
      let key ← read path
      let value ← read (valuePath path kind)
      entries read path fuel (acc.put key value)

/-- A collection, whose nodes `inner` reads if it is not too deep. -/
def collection (inner : Option Reader) (mark : Mark) (read : Reader → Build Tree) : Build Tree :=
  match inner with
  | some reader => read reader
  | none => throw (.recursionLimit mark)

/-- A node under the name that its tag gives it, or as it is. -/
def named (tag : Option TagText) (t : Tree) : Tree :=
  match tag.bind Resolve.tagName? with
  | some name => .tagged name t
  | none => t

/-- A node behind its first item. -/
def content (inner : Option Reader) (i : Item) (path : Path) : Build Tree :=
  match i.kind with
  | .scalar c =>
    match Resolve.scalar s.input c with
    | .ok t => return named c.tag t
    | .error form => throw (.invalidValue path c.text form i.mark)
  | .sequenceStart tag =>
    collection inner i.mark fun read => return named tag (.seq (← elements s read path s.size 0 []))
  | .mappingStart tag =>
    collection inner i.mark fun read => return named tag (.map (← entries s read path s.size []))
  | _ => return .null

/-- Reads the node of an anchor and comes back. -/
def jump (inner : Option Reader) (anchor : Nat) (path : Path) : Build Tree := do
  let p ← get
  if s.maxJumps < p.jumps + 1 then throw .repetitionLimit
  set (Progress.mk (s.document.targets.getD anchor []) (p.jumps + 1))
  let t ← content s inner (← next s) path.aliased
  modify ({ · with rest := p.rest })
  return t

/-- A node whose collections' nodes `inner` reads. -/
def nodeWith (inner : Option Reader) : Reader := fun path => do
  let i ← next s
  match i.kind with
  | .aliasOf anchor => jump s inner anchor path
  | _ => content s inner i path

/-- A node with at most the given depth of collections. -/
def node : Nat → Reader
  | 0 => nodeWith s none
  | depth + 1 => nodeWith s (some (node depth))

/-- The root of the document, which must be all there is. -/
def root : Except Fault Tree := do
  let (t, _) ← node s maxDepth .root ⟨s.document.items, 0⟩
  match s.document.broken with
  | some b => throw (.ofBreak (some b))
  | none => if s.document.continued then throw .moreDocuments else return t

end Build

/-- Reads a text as a document tree; merge keys stay ordinary keys. -/
def read (text : String) : Except Fault Tree :=
  Build.root (.ofText text)

end BootConfig.Yaml
