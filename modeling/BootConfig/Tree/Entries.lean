import BootConfig.Tree.Basic

/-!
# Entries of a mapping

Look-up, insertion and removal by key. An entry keeps its place when its value is replaced; a new
one goes to the end.
-/

namespace BootConfig.Entries

/-- The value of a key. -/
def find? (key : Tree) : Entries → Option Tree
  | [] => none
  | (k, v) :: es => if k.same key then some v else find? key es

def has (key : Tree) (es : Entries) : Bool :=
  (find? key es).isSome

/-- Sets the value of a key: in the place of the entry that has it, at the end if there is none. -/
def put (key value : Tree) : Entries → Entries
  | [] => [(key, value)]
  | (k, v) :: es => if k.same key then (k, value) :: es else (k, v) :: put key value es

/-- Adds the entry unless its key is present. -/
def putNew (key value : Tree) (es : Entries) : Entries :=
  if has key es then es else es ++ [(key, value)]

/-- Changes the value of a key where it stands. -/
def adjust (key value : Tree) : Entries → Entries
  | [] => []
  | (k, v) :: es => if k.same key then (k, value) :: es else (k, v) :: adjust key value es

/-- Removes the entry of a key; the others keep their order. -/
def drop (key : Tree) : Entries → Entries
  | [] => []
  | (k, v) :: es => if k.same key then es else (k, v) :: drop key es

/-- The entries with the last one moved to the front. -/
def lastFirst (es : Entries) : Entries :=
  match es.getLast? with
  | none => []
  | some e => e :: es.dropLast

/-- Takes the entry of a key out and moves the last entry into its place. -/
def take? (key : Tree) : Entries → Option (Tree × Entries)
  | [] => none
  | (k, v) :: es =>
    if k.same key then some (v, lastFirst es)
    else (take? key es).map fun (value, rest) => (value, (k, v) :: rest)

/-- The entries inserted one after the other. -/
def ofList (es : List (Tree × Tree)) : Entries :=
  es.foldl (fun acc e => put e.1 e.2 acc) []

end BootConfig.Entries
