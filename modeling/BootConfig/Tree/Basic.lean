import BootConfig.Number.Double

/-!
# Document trees

The values that a document is made of, and when two of them are the same key.
-/

namespace BootConfig

/-- A node of a document. A mapping lists its entries in order; a tag's name stands without the `!`
that marks it. -/
inductive Tree where
  | null
  | bool (value : Bool)
  | int (value : Int)
  | float (value : Double)
  | str (text : String)
  | seq (items : List Tree)
  | map (entries : List (Tree × Tree))
  | tagged (name : String) (value : Tree)
deriving Inhabited

/-- The entries of a mapping in order. -/
abbrev Entries := List (Tree × Tree)

/-- The name in a tag's text: what follows one leading `!`, or all of it if nothing follows. -/
def tagName (tag : String) : String :=
  match tag.toList with
  | '!' :: c :: cs => String.ofList (c :: cs)
  | _ => tag

namespace Tree

/-- What a node is called where another kind was expected. -/
def kind : Tree → String
  | null => "null"
  | bool _ => "boolean"
  | int _ => "number"
  | float _ => "number"
  | str _ => "string"
  | seq _ => "sequence"
  | map _ => "mapping"
  | tagged .. => "tagged value"

mutual

/-- The greatest number of collections and tags around a node, keys left out. -/
def depth : Tree → Nat
  | seq items => depthItems items + 1
  | map entries => depthEntries entries + 1
  | tagged _ value => depth value + 1
  | _ => 0

def depthItems : List Tree → Nat
  | [] => 0
  | t :: ts => max (depth t) (depthItems ts)

def depthEntries : Entries → Nat
  | [] => 0
  | (_, v) :: es => max (depth v) (depthEntries es)

end

mutual

/-- Equality of keys. The order of a mapping's entries does not count, and an integer is never a
float. -/
def same : Tree → Tree → Bool
  | null, null => true
  | bool a, bool b => a == b
  | int a, int b => a == b
  | float a, float b => a.same b
  | str a, str b => a == b
  | seq as, seq bs => sameItems as bs
  | map as, map bs => as.length == bs.length && sameEntries as bs
  | tagged t a, tagged u b => t == u && same a b
  | _, _ => false

def sameItems : List Tree → List Tree → Bool
  | [], [] => true
  | a :: as, b :: bs => same a b && sameItems as bs
  | _, _ => false

/-- Every entry of the first list has the same entry in the second. -/
def sameEntries : Entries → Entries → Bool
  | [], _ => true
  | (k, v) :: as, bs => bs.any (fun e => same k e.1 && same v e.2) && sameEntries as bs

end

end Tree

end BootConfig
