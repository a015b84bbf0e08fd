import BootConfig.Yaml.Token
import BootConfig.Yaml.Cursor

/-!
# Block scalars

A literal scalar keeps the line breaks of its lines, a folded one reads a break between two lines of
text as a space. The header may fix the indentation and says what becomes of the breaks at the end.
-/

namespace BootConfig.Yaml.Scan

/-- What becomes of the line breaks behind the last line of text. -/
inductive Chomping where
  | strip
  | clip
  | keep
deriving DecidableEq

/-- A sign that fixes the chomping. -/
def chomping? : Scan (Option Chomping) := do
  match ← peek with
  | some '+' =>
    skip
    return some .keep
  | some '-' =>
    skip
    return some .strip
  | _ => return none

/-- A digit that fixes the indentation. -/
def indentation? (began : Mark) : Scan (Option Nat) := do
  match ← peek with
  | some c =>
    if c = '0' then fail .zeroIndentation .blockScalar began
    else if c.isDigit then
      skip
      return Digits.value? c
    else return none
  | none => return none

/-- The header behind the indicator, in either order. -/
def blockHeader (began : Mark) : Scan (Chomping × Option Nat) := do
  need 1
  match ← chomping? with
  | some chomping =>
    need 1
    return (chomping, ← indentation? began)
  | none =>
    match ← indentation? began with
    | none => return (.clip, none)
    | some n =>
      need 1
      return ((← chomping?).getD .clip, some n)

/-- Takes spaces, those left of the given column if there is one. -/
def skipIndentation (indent : Option Nat) : Nat → Scan Unit
  | 0 => return ()
  | fuel + 1 => do
    need 1
    let c ← get
    if c.rest.head? = some ' ' && indent.all (c.mark.column < ·) then
      skip
      skipIndentation indent fuel

/-- Takes empty lines and the indentation of the next line. Gives the breaks in reverse, the
greatest column seen and the end of the last empty line. -/
def emptyLines (indent : Option Nat) (began : Mark) :
    Nat → List Char → Nat → Mark → Scan (List Char × Nat × Mark)
  | 0, breaks, widest, stop => return (breaks, widest, stop)
  | fuel + 1, breaks, widest, stop => do
    skipIndentation indent (← bound)
    let c ← get
    let widest := max widest c.mark.column
    if c.rest.head? = some '\t' && indent.all (c.mark.column < ·) then
      fail .tabInIndentation .blockScalar began
    if !atBreak c.rest.head? then return (breaks, widest, stop)
    need 2
    let found ← takeBreak
    emptyLines indent began fuel (found ++ breaks) widest (← mark)

/-- The text of a block scalar, the break behind its last line and those of the empty lines after
that, all in reverse. -/
structure Block where
  text : List Char
  lastBreak : List Char
  emptyBreaks : List Char
  stop : Mark

/-- What stands between two lines, in reverse: in a folded scalar a break between two lines that
begin with text is a space, or nothing in front of empty lines. -/
def between (folded afterBlank beforeBlank : Bool) (b : Block) : List Char :=
  if folded && b.lastBreak.head? = some '\n' && !afterBlank && !beforeBlank then
    if b.emptyBreaks.isEmpty then [' '] else b.emptyBreaks
  else b.emptyBreaks ++ b.lastBreak

/-- The lines of a scalar that stand at the given column. `afterBlank` says that the last line began
with a blank. -/
def blockLines (folded : Bool) (indent : Nat) (began : Mark) : Nat → Bool → Block → Scan Block
  | 0, _, b => return b
  | fuel + 1, afterBlank, b => do
    let c ← get
    if c.mark.column ≠ indent || c.rest.isEmpty then return b
    let beforeBlank := atBlank c.rest.head?
    let joint := between folded afterBlank beforeBlank b
    let line ← takeWhile (fun x => !isBreak x)
    need 2
    let lastBreak ← takeBreak
    let (emptyBreaks, _, stop) ← emptyLines (some indent) began c.bound [] 0 (← mark)
    blockLines folded indent began fuel beforeBlank
      ⟨line.reverse ++ (joint ++ b.text), lastBreak, emptyBreaks, stop⟩

/-- The text with as many of the final breaks as the chomping keeps. -/
def Block.chomped (b : Block) : Chomping → List Char
  | .strip => b.text.reverse
  | .clip => (b.lastBreak ++ b.text).reverse
  | .keep => (b.emptyBreaks ++ b.lastBreak ++ b.text).reverse

/-- A scalar inside a collection at the given column, -1 standing for none. -/
def block (folded : Bool) (parent : Int) : Scan Token := do
  let began ← mark
  skip
  let (chomping, increment) ← blockHeader began
  skipLineEnd .blockScalar began
  let fixed := increment.map fun n => (max parent 0).toNat + n
  let (emptyBreaks, widest, stop) ← emptyLines fixed began (← bound) [] 0 (← mark)
  let indent := fixed.getD (max (max widest (parent + 1).toNat) 1)
  need 1
  let b ← blockLines folded indent began (← bound) false ⟨[], [], emptyBreaks, stop⟩
  let style := if folded then .folded else .literal
  return ⟨.scalar style (String.ofList (b.chomped chomping)), began, b.stop⟩

end BootConfig.Yaml.Scan
