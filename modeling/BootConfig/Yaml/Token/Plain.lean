import BootConfig.Yaml.Token
import BootConfig.Yaml.Token.Folding

/-!
# Plain scalars

A plain scalar runs until a colon or comment that stands apart, an indicator of the surrounding
collection, a document mark, or a line that is not indented far enough.
-/

namespace BootConfig.Yaml.Scan

/-- A run of characters without gaps, in front of what has been read of the scalar in reverse. -/
def plainRun (inFlow : Bool) (began : Mark) : Nat → List Char → Scan (List Char)
  | 0, acc => return acc
  | fuel + 1, acc => do
    match (← get).rest with
    | [] => return acc
    | c :: more =>
      if isGap c then return acc
      else if inFlow && c = ':' && more.head?.any (fun x => x == '?' || isFlowIndicator x) then
        fail .unexpectedColon .plainScalar began
      else if (c = ':' && atGapOrEnd more.head?) || (inFlow && isFlowIndicator c) then return acc
      else
        skip
        need 2
        plainRun inFlow began fuel (c :: acc)

/-- The lines of a scalar: its text in reverse, its end, and whether a line break follows the text.
`gap` is what stands in front of the next run. -/
def plainLines (inFlow : Bool) (indent : Nat) (began : Mark) :
    Nat → List Char → Mark → Gap → Scan (List Char × Mark × Bool)
  | 0, acc, stop, gap => return (acc, stop, gap.broken)
  | fuel + 1, acc, stop, gap => do
    need 4
    let c ← get
    if c.atDocumentMark || c.rest.head? = some '#' then return (acc, stop, gap.broken)
    let run ← plainRun inFlow began c.bound []
    let here ← mark
    let (acc, stop, gap) :=
      if run.isEmpty then (acc, stop, gap)
      else (run ++ (gap.text ++ acc), here, Gap.empty)
    if !atGap (← peek) then return (acc, stop, gap.broken)
    need 1
    let gap ← extendGap indent .plainScalar began c.bound gap
    if !inFlow && (← mark).column < indent then return (acc, stop, gap.broken)
    plainLines inFlow indent began fuel acc stop gap

/-- The token, and whether the line has ended behind it. -/
def plain (inFlow : Bool) (indent : Nat) : Scan (Token × Bool) := do
  let began ← mark
  let (text, stop, broken) ← plainLines inFlow indent began (← bound) [] began .empty
  return (⟨.scalar .plain (String.ofList text.reverse), began, stop⟩, broken)

end BootConfig.Yaml.Scan
