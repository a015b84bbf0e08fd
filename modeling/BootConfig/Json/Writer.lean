import BootConfig.Number.Shortest
import BootConfig.Text.Digits
import BootConfig.Tree.Basic

/-!
# Writing trees as JSON

Two spaces of indentation for each level, members in the order of the mapping, and a final newline.
Every tree can be written whose mappings have only keys with a name: strings, booleans, integers and
finite floats.
-/

namespace BootConfig.Json

/-- Why a key has no name. -/
inductive KeyFault where
  | notText
  | notFinite
deriving DecidableEq

def KeyFault.message : KeyFault → String
  | .notText => "key must be a string"
  | .notFinite => "float key must be finite (got NaN or +/-inf)"

/-- The text of an integer. -/
def intText (n : Int) : String :=
  let digits := Nat.toDigits 10 n.natAbs
  String.ofList (if n < 0 then '-' :: digits else digits)

def boolText (b : Bool) : String := if b then "true" else "false"

/-- The member name that a key becomes. -/
def keyName : Tree → Except KeyFault String
  | .str text => .ok text
  | .bool b => .ok (boolText b)
  | .int n => .ok (intText n)
  | .float x => if x.isFinite then .ok x.text else .error .notFinite
  | .null | .seq _ | .map _ | .tagged .. => .error .notText

/-- The member name of a tagged value. -/
def tagMember (name : String) : String := "!" ++ name

mutual

/-- The first key in writing order that has no name. Keys themselves are not searched: one that is a
collection has none. -/
def keyFault? : Tree → Option KeyFault
  | .seq items => keyFaultItems? items
  | .map entries => keyFaultEntries? entries
  | .tagged _ value => keyFault? value
  | _ => none

def keyFaultItems? : List Tree → Option KeyFault
  | [] => none
  | t :: ts => (keyFault? t).or (keyFaultItems? ts)

def keyFaultEntries? : Entries → Option KeyFault
  | [] => none
  | (k, v) :: es =>
    match keyName k with
    | .error fault => some fault
    | .ok _ => (keyFault? v).or (keyFaultEntries? es)

end

/-! ## Text of strings -/

/-- Quotes, backslashes and the characters below space are escaped, all others written as they
are. -/
def escape (c : Char) : List Char :=
  if c = '"' then ['\\', '"']
  else if c = '\\' then ['\\', '\\']
  else if c = '\x08' then ['\\', 'b']
  else if c = '\x0c' then ['\\', 'f']
  else if c = '\n' then ['\\', 'n']
  else if c = '\r' then ['\\', 'r']
  else if c = '\t' then ['\\', 't']
  else if c.toNat < 32 then
    ['\\', 'u', '0', '0', Digits.lowerHex (c.toNat / 16), Digits.lowerHex (c.toNat % 16)]
  else [c]

/-- The string token of a text, in front of what follows. -/
def writeString (text : String) (tail : List Char) : List Char :=
  '"' :: (text.toList.flatMap escape ++ '"' :: tail)

/-! ## Text of trees -/

/-- A line break and the indentation of a level. -/
def newline (level : Nat) (tail : List Char) : List Char :=
  '\n' :: (List.replicate (2 * level) ' ' ++ tail)

/-- The name of a key, empty where there is none. -/
def nameOf (key : Tree) : String :=
  match keyName key with
  | .ok name => name
  | .error _ => ""

mutual

/-- A tree at a level of indentation, in front of what follows. -/
def write (level : Nat) : Tree → List Char → List Char
  | .null, tail => 'n' :: 'u' :: 'l' :: 'l' :: tail
  | .bool b, tail => (boolText b).toList ++ tail
  | .int n, tail => (intText n).toList ++ tail
  | .float x, tail => if x.isFinite then x.text.toList ++ tail else 'n' :: 'u' :: 'l' :: 'l' :: tail
  | .str text, tail => writeString text tail
  | .seq [], tail => '[' :: ']' :: tail
  | .seq (t :: ts), tail =>
    '[' :: newline (level + 1)
      (write (level + 1) t (writeItems (level + 1) ts (newline level (']' :: tail))))
  | .map [], tail => '{' :: '}' :: tail
  | .map ((k, v) :: es), tail =>
    '{' :: newline (level + 1) (writeString (nameOf k) (':' :: ' ' ::
      write (level + 1) v (writeEntries (level + 1) es (newline level ('}' :: tail)))))
  | .tagged name value, tail =>
    '{' :: newline (level + 1) (writeString (tagMember name)
      (':' :: ' ' :: write (level + 1) value (newline level ('}' :: tail))))

/-- The items after the first, each behind a comma. -/
def writeItems (level : Nat) : List Tree → List Char → List Char
  | [], tail => tail
  | t :: ts, tail => ',' :: newline level (write level t (writeItems level ts tail))

/-- The members after the first, each behind a comma. -/
def writeEntries (level : Nat) : Entries → List Char → List Char
  | [], tail => tail
  | (k, v) :: es, tail =>
    ',' :: newline level
      (writeString (nameOf k) (':' :: ' ' :: write level v (writeEntries level es tail)))

end

/-- The JSON text of a document. -/
def render (document : Tree) : Except KeyFault String :=
  match keyFault? document with
  | some fault => .error fault
  | none => .ok (String.ofList (write 0 document ['\n']))

end BootConfig.Json
