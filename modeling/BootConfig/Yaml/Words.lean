import BootConfig.Text.Digits
import BootConfig.Tree.Basic

/-!
# Words of version 1.1

What a plain scalar means that the later version of the language reads as text: the switch words are
booleans, and digits behind a leading zero an integer in base 8.
-/

namespace BootConfig.Yaml.Words

def onWords : List String := ["yes", "Yes", "YES", "on", "On", "ON"]

def offWords : List String := ["no", "No", "NO", "off", "Off", "OFF"]

def switch? (text : String) : Option Bool :=
  if onWords.contains text then some true
  else if offWords.contains text then some false
  else none

/-- `[-+]?0[0-7_]+` in base 8, without its underscores and up to 2^63 - 1 in magnitude. -/
def octal? (text : List Char) : Option Int :=
  match Digits.sign text with
  | (negative, '0' :: ds) =>
    let n := Digits.number 8 (ds.filter (· != '_'))
    if ds.isEmpty || !ds.all (fun c => Digits.isDigit 8 c || c == '_') || Nat.pow 2 63 ≤ n then none
    else some (Digits.signed negative n)
  | _ => none

/-- A plain scalar that version 1.2 reads as text. -/
def read (text : String) : Tree :=
  match switch? text with
  | some b => .bool b
  | none =>
    match octal? text.toList with
    | some n => .int n
    | none => .str text

end BootConfig.Yaml.Words
