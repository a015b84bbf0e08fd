import BootConfig.Text.Utf8
import BootConfig.Yaml.Event

/-!
# The grammar

The grammar of streams, documents and nodes as a machine with a stack: what is expected now, and
what is expected once that is complete. Each step takes the tokens of one event.
-/

namespace BootConfig.Yaml

/-- What the grammar expects. An open collection knows where it began. -/
inductive Expect where
  | stream
  | document (bare : Bool)
  | content
  | documentEnd
  | blockNode
  | blockEntry (began : Mark)
  | indentlessEntry
  | blockKey (began : Mark)
  | blockValue (began : Mark)
  | flowEntry (first : Bool) (began : Mark)
  | pairKey (began : Mark)
  | pairValue (began : Mark)
  | pairEnd (began : Mark)
  | flowKey (first : Bool) (began : Mark)
  | flowValue (began : Mark)
  | flowNoValue (began : Mark)
  | nothing
deriving DecidableEq

/-- What a tag handle stands for. -/
abbrev Handles := List (String × TagText)

/-- The handles that every document has unless it defines them itself. -/
def defaultHandles : Handles :=
  [("!", Utf8.encode ['!']), ("!!", Utf8.encode "tag:yaml.org,2002:".toList)]

structure Grammar where
  tokens : List Token
  expect : Expect
  stack : List Expect
  handles : Handles

/-- A step of the grammar. It fails without a problem of its own where the tokens run out. -/
abbrev Parse := StateT Grammar (Except (Option Problem))

namespace Parse

def fail {α : Type} (cause : Cause) (place : Mark) (context : Option (Activity × Mark)) : Parse α :=
  throw (some (.malformed cause place context))

/-- The next token. -/
def peek : Parse Token := do
  match (← get).tokens with
  | t :: _ => return t
  | [] => throw none

def skip : Parse Unit := modify fun g => { g with tokens := g.tokens.tail }

def next (e : Expect) : Parse Unit := modify ({ · with expect := e })

/-- Expects something once what comes now is complete. -/
def later (e : Expect) : Parse Unit := modify fun g => { g with stack := e :: g.stack }

/-- Goes on with what was left for later. -/
def complete : Parse Unit := modify fun g =>
  match g.stack with
  | e :: es => { g with expect := e, stack := es }
  | [] => { g with expect := .nothing }

end Parse

end BootConfig.Yaml
