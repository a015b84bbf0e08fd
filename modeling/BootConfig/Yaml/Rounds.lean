import BootConfig.Yaml.Node

/-!
# Reading by rounds

The same recursion with no bound of its own: an attempt has a number of rounds for its loops and for
the nodes inside each other, and comes to nothing when they are up. What makes it end are the two
limits that a document is read with, the depth of its collections and the number of aliases that are
followed.
-/

namespace BootConfig.Yaml.Rounds

open Build (next peek skip named valuePath)

/-- A reader that comes to a result or a fault, or has not ended. -/
abbrev Attempt := StateT Progress (ExceptT Fault Option)

namespace Attempt

variable {α : Type}

def ofBuild (x : Build α) : Attempt α := fun p => some (x p)

def unended : Attempt α := fun _ => none

end Attempt

variable (s : Source)

/-- The elements of a sequence up to its end. -/
def elements (read : Path → Attempt Tree) (path : Path) : Nat → Nat → List Tree →
    Attempt (List Tree)
  | 0, _, _ => .unended
  | rounds + 1, index, acc => do
    match (← Attempt.ofBuild (peek s)).kind with
    | .sequenceEnd | .void =>
      Attempt.ofBuild skip
      return acc.reverse
    | _ =>
      let t ← read (path.element index)
      elements read path rounds (index + 1) (t :: acc)

/-- The entries of a mapping up to its end. -/
def entries (read : Path → Attempt Tree) (path : Path) : Nat → Entries → Attempt Entries
  | 0, _ => .unended
  | rounds + 1, acc => do
    let i ← Attempt.ofBuild (peek s)
    match i.kind with
    | .mappingEnd | .void =>
      Attempt.ofBuild skip
      return acc
    | kind =>
      let key ← read path
      let value ← read (valuePath path kind)
      entries read path rounds (acc.put key value)

/-- A node behind its first item. -/
def content (rounds : Nat) (inner : Option (Path → Attempt Tree)) (i : Item) (path : Path) :
    Attempt Tree :=
  match i.kind, inner with
  | .sequenceStart tag, some read => do return named tag (.seq (← elements s read path rounds 0 []))
  | .mappingStart tag, some read => do return named tag (.map (← entries s read path rounds []))
  | _, _ => .ofBuild (Build.content s none i path)

/-- A node, or the node that an alias stands for. -/
def nodeWith (rounds : Nat) (inner : Option (Path → Attempt Tree)) (path : Path) :
    Attempt Tree := do
  let i ← Attempt.ofBuild (next s)
  match i.kind with
  | .aliasOf anchor => do
    let p ← get
    if s.maxJumps < p.jumps + 1 then throw .repetitionLimit
    set (Progress.mk (s.document.targets.getD anchor []) (p.jumps + 1))
    let t ← content s rounds inner (← Attempt.ofBuild (next s)) path.aliased
    modify ({ · with rest := p.rest })
    return t
  | _ => content s rounds inner i path

/-- A node with at most the given depth of collections. -/
def node : Nat → Nat → Path → Attempt Tree
  | 0, _, _ => .unended
  | rounds + 1, 0, path => nodeWith s rounds none path
  | rounds + 1, depth + 1, path => nodeWith s rounds (some (node rounds depth)) path

/-- The root of a document. -/
def root (rounds : Nat) : Option (Except Fault Tree) := ExceptT.run do
  let (t, _) ← node s rounds maxDepth .root ⟨s.document.items, 0⟩
  match s.document.broken with
  | some b => throw (.ofBreak (some b))
  | none => if s.document.continued then throw .moreDocuments else return t

/-- Reads a text as a document tree, as far as a number of rounds lets it. -/
def read (rounds : Nat) (text : String) : Option (Except Fault Tree) := root (.ofText text) rounds

end BootConfig.Yaml.Rounds
