import BootConfig.Yaml.Cursor

/-!
# Line folding

What stands between two runs of text of a flow scalar: blanks within a line stay, one line break
becomes a space, and of several breaks the first is dropped.
-/

namespace BootConfig.Yaml

/-- The gap behind a run of text: the blanks of its line, its first line break and the further ones,
blanks and further breaks in reverse. `broken` says that the run's line has ended, also by an
escaped break, which leaves nothing. -/
structure Gap where
  blanks : List Char
  first : List Char
  further : List Char
  broken : Bool
deriving DecidableEq

namespace Gap

def empty : Gap := ⟨[], [], [], false⟩

/-- Behind an escaped line break. -/
def escapedBreak : Gap := ⟨[], [], [], true⟩

def addBlank (g : Gap) (c : Char) : Gap :=
  if g.broken then g else { g with blanks := c :: g.blanks }

def addBreak (g : Gap) (breaks : List Char) : Gap :=
  if g.broken then { g with further := breaks ++ g.further }
  else { g with blanks := [], first := breaks, broken := true }

/-- What the gap is read as, in reverse. -/
def text (g : Gap) : List Char :=
  if !g.broken then g.blanks
  else if g.first.head? = some '\n' then
    if g.further.isEmpty then [' '] else g.further
  else g.further ++ g.first

end Gap

namespace Scan

/-- Extends a gap over all blanks and line breaks. A tab left of the given column is a problem once
the line has ended. -/
def extendGap (indent : Nat) (activity : Activity) (began : Mark) : Nat → Gap → Scan Gap
  | 0, g => return g
  | fuel + 1, g => do
    match ← peek with
    | none => return g
    | some c =>
      if isBlank c then
        if g.broken && c = '\t' && (← mark).column < indent then
          fail .tabViolatesIndentation activity began
        skip
        need 1
        extendGap indent activity began fuel (g.addBlank c)
      else if isBreak c then
        need 2
        let breaks ← takeBreak
        need 1
        extendGap indent activity began fuel (g.addBreak breaks)
      else return g

end Scan

end BootConfig.Yaml
