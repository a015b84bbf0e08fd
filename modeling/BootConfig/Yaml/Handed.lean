import BootConfig.Tree.Entries
import BootConfig.Yaml.Fault

/-!
# Values handed over

A tree can also be made from values that a reader hands over one by one. Text that is lent from the
input is read by the words of version 1.1 unless a quote stands right in front of it; text of its
own stays as it is.
-/

namespace BootConfig.Yaml

/-- An input and what surrounds it in memory. -/
structure Buffer where
  before : ByteArray
  input : ByteArray
  after : ByteArray

namespace Buffer

def bytes (b : Buffer) : ByteArray := b.before ++ b.input ++ b.after

/-- The text of the bytes from `start` up to `stop`. -/
def slice (b : Buffer) (start stop : Nat) : String :=
  (String.fromUTF8? (b.bytes.extract start stop)).getD ""

/-- Whether the bytes lie in the input with no quote of it right in front of them. -/
def isUnquoted (b : Buffer) (start stop : Nat) : Bool :=
  b.before.size ≤ start && stop ≤ b.before.size + b.input.size &&
    !Resolve.quoteBefore b.input (start - b.before.size)

end Buffer

/-- A value as it is handed over. A wide integer is of a type that trees do not have and becomes a
float. -/
inductive Handed where
  | lent (start stop : Nat)
  | owned (text : String)
  | bool (value : Bool)
  | int (value : Int)
  | wide (value : Int)
  | float (value : Double)
  | nothing
  | just (value : Handed)
  | seq (items : List Handed)
  | map (entries : List (Handed × Handed))
  | refused (what : Refused)

namespace Handed

def lentText (b : Buffer) (start stop : Nat) : Tree :=
  if b.isUnquoted start stop then Words.read (b.slice start stop) else .str (b.slice start stop)

mutual

/-- The tree of a value. A value of a refused type anywhere refuses the whole. -/
def tree (b : Buffer) : Handed → Except Fault Tree
  | lent start stop => .ok (lentText b start stop)
  | owned text => .ok (.str text)
  | bool value => .ok (.bool value)
  | int value => .ok (.int value)
  | wide value => .ok (.float (.ofInt value))
  | float value => .ok (.float value)
  | nothing => .ok .null
  | just value => tree b value
  | seq items => return .seq (← trees b items)
  | map entries => return .map (← addEntries b entries [])
  | refused what => .error (.refused what)

def trees (b : Buffer) : List Handed → Except Fault (List Tree)
  | [] => .ok []
  | h :: hs => return (← tree b h) :: (← trees b hs)

/-- Puts entries to those made already, each key before its value. -/
def addEntries (b : Buffer) : List (Handed × Handed) → Entries → Except Fault Entries
  | [], acc => .ok acc
  | (k, v) :: es, acc => do
    let key ← tree b k
    let value ← tree b v
    addEntries b es (acc.put key value)

end

end Handed

end BootConfig.Yaml
