import BootConfig.Yaml.Event.Stream

/-!
# Documents

The nodes of the first document of a stream, with each alias tied to the node that its anchor names.
-/

namespace BootConfig.Yaml

/-- A scalar as written: its tag, its style, its text, and where its source begins and ends, in
bytes. -/
structure Scalar where
  tag : Option TagText
  style : Style
  text : String
  start : Nat
  stop : Nat
deriving DecidableEq

/-- An event of a document. Anchors are numbered, and `void` is the document of a text without
one. -/
inductive Item.Kind where
  | aliasOf (anchor : Nat)
  | scalar (s : Scalar)
  | sequenceStart (tag : Option TagText)
  | sequenceEnd
  | mappingStart (tag : Option TagText)
  | mappingEnd
  | void
deriving DecidableEq

structure Item where
  kind : Item.Kind
  mark : Mark
deriving DecidableEq

/-- Why the items of a document break off. -/
inductive Break where
  | problem (p : Problem)
  | unknownAnchor (mark : Mark)
deriving DecidableEq

/-- A document: its items, for each anchor's number the items from its node on, why the items break
off, and whether the stream goes on behind it. -/
structure Document where
  items : List Item
  targets : Array (List Item)
  broken : Option Break
  continued : Bool

namespace Document

/-- The anchors met so far. `numbers` gives each name its number, `positions` each number the
position of its latest node. -/
structure Anchors where
  numbers : List (String × Nat)
  positions : Array Nat

namespace Anchors

def empty : Anchors := ⟨[], #[]⟩

def number? (a : Anchors) (name : String) : Option Nat :=
  (a.numbers.find? (·.1 = name)).map (·.2)

/-- The names with one of them given a new number. -/
def renumber (name : String) (number : Nat) : List (String × Nat) → List (String × Nat)
  | [] => [(name, number)]
  | e :: es => if e.1 = name then (name, number) :: es else e :: renumber name number es

/-- Names a node. Its number is the number of names known before, so that a name which is given
again takes a number that the next new name takes over. -/
def define (a : Anchors) (name : String) (position : Nat) : Anchors :=
  let number := a.numbers.length
  { numbers := renumber name number a.numbers
    positions := if number < a.positions.size then a.positions.set! number position
      else a.positions.push position }

/-- Names a node that may have an anchor. -/
def defineAny (a : Anchors) (anchor : Option String) (position : Nat) : Anchors :=
  match anchor with
  | some name => a.define name position
  | none => a

end Anchors

/-- What was found of a document, its items in reverse. -/
structure Partial where
  items : List Item
  count : Nat
  anchors : Anchors

namespace Partial

def empty : Partial := ⟨[], 0, .empty⟩

def add (p : Partial) (kind : Item.Kind) (mark : Mark) : Partial :=
  { p with items := ⟨kind, mark⟩ :: p.items, count := p.count + 1 }

def named (p : Partial) (anchor : Option String) : Partial :=
  { p with anchors := p.anchors.defineAny anchor p.count }

/-- All lists that remain when items are taken from the front. -/
def suffixes : List Item → List (List Item)
  | [] => [[]]
  | i :: is => (i :: is) :: suffixes is

def finish (p : Partial) (broken : Option Break) (continued : Bool) : Document :=
  let items := p.items.reverse
  let remaining := (suffixes items).toArray
  { items, targets := p.anchors.positions.map (remaining.getD · []), broken, continued }

end Partial

/-- Whether the events behind a document hold another one. -/
def continues : List Event → Option Problem → Bool
  | [], problem => problem.isSome
  | e :: _, _ => e.kind != .streamEnd

/-- Collects the items of the first document. -/
def collect (problem : Option Problem) : List Event → Partial → Document
  | [], p => p.finish (problem.map .problem) false
  | e :: es, p =>
    match e.kind with
    | .streamStart | .documentStart => collect problem es p
    | .streamEnd =>
      (if p.items.isEmpty then p.add .void e.start else p).finish none false
    | .documentEnd => p.finish none (continues es problem)
    | .aliasOf name =>
      match p.anchors.number? name with
      | some number => collect problem es (p.add (.aliasOf number) e.start)
      | none => p.finish (some (.unknownAnchor e.start)) false
    | .scalar properties style text =>
      let s : Scalar := ⟨properties.tag, style, text, e.start.offset, e.stop.offset⟩
      collect problem es ((p.named properties.anchor).add (.scalar s) e.start)
    | .sequenceStart properties =>
      collect problem es ((p.named properties.anchor).add (.sequenceStart properties.tag) e.start)
    | .sequenceEnd => collect problem es (p.add .sequenceEnd e.start)
    | .mappingStart properties =>
      collect problem es ((p.named properties.anchor).add (.mappingStart properties.tag) e.start)
    | .mappingEnd => collect problem es (p.add .mappingEnd e.start)

def ofEvents (e : Events) : Document :=
  collect e.problem e.list .empty

/-- The first document of a text. -/
def ofText (text : List Char) : Document :=
  ofEvents (.ofTokens (.ofText text))

end Document

end BootConfig.Yaml
