import BootConfig.Tree.Entries
import BootConfig.Yaml.Fault

/-!
# Merge keys

The value of a key `<<` is a mapping, or a list of mappings, whose entries are added to the mapping
with the key where it does not have their keys. Nodes are treated from the root down and the last
value of a mapping first.
-/

namespace BootConfig.Yaml.Merge

def mergeKey : Tree := .str "<<"

/-- The entries that an element of a merge list stands for. -/
def element : Tree → Except MergeFault Entries
  | .map entries => .ok entries
  | .seq _ => .error .sequenceElement
  | .tagged .. => .error .tagged
  | _ => .error .scalarElement

/-- The entries that the value of a merge key stands for, in the order in which they are added. -/
def sources : Tree → Except MergeFault Entries
  | .map entries => .ok entries
  | .seq elements => do return (← elements.mapM element).flatten
  | .tagged .. => .error .tagged
  | _ => .error .scalar

/-- Adds the entries whose keys are new. -/
def addNew (es added : Entries) : Entries :=
  added.foldl (fun acc e => Entries.putNew e.1 e.2 acc) es

/-- The entries of one mapping with its merge key applied. The last entry takes the place of the
key. -/
def mergeEntries (es : Entries) : Except MergeFault Entries :=
  match Entries.take? mergeKey es with
  | none => .ok es
  | some (value, rest) => (sources value).map (addNew rest)

/-- Applies the merge keys of a tree no deeper than the given number, in a mapping before those in
its values. -/
def expandTo : Nat → Tree → Except MergeFault Tree
  | depth + 1, .map es => do
    let es ← (← mergeEntries es).reverse.mapM fun (k, v) => return (k, ← expandTo depth v)
    return .map es.reverse
  | depth + 1, .seq items => do
    let items ← items.reverse.mapM (expandTo depth)
    return .seq items.reverse
  | depth + 1, .tagged name value => return .tagged name (← expandTo depth value)
  | _, t => .ok t

/-- Applies all merge keys of a tree. -/
def expand (t : Tree) : Except MergeFault Tree := expandTo t.depth t

end BootConfig.Yaml.Merge
