import BootConfig.Yaml.Token
import BootConfig.Yaml.Token.Folding

/-!
# Quoted scalars

In single quotes a quote is written twice and nothing else is special; in double quotes a backslash
begins an escape.
-/

namespace BootConfig.Yaml.Scan

/-- What an escape letter stands for. -/
def simpleEscape? : Char → Option Char
  | '0' => some '\x00'
  | 'a' => some '\x07'
  | 'b' => some '\x08'
  | 't' => some '\t'
  | '\t' => some '\t'
  | 'n' => some '\n'
  | 'v' => some '\x0b'
  | 'f' => some '\x0c'
  | 'r' => some '\r'
  | 'e' => some '\x1b'
  | ' ' => some ' '
  | '"' => some '"'
  | '/' => some '/'
  | '\\' => some '\\'
  | 'N' => some nextLine
  | '_' => some '\u00a0'
  | 'L' => some lineSeparator
  | 'P' => some paragraphSeparator
  | _ => none

/-- The number of hexadecimal digits that follow an escape letter. -/
def escapeDigits? : Char → Option Nat
  | 'x' => some 2
  | 'u' => some 4
  | 'U' => some 8
  | _ => none

/-- The character with the given number of hexadecimal digits at the cursor. -/
def hexChar (digits : Nat) (began : Mark) : Scan Char := do
  need digits
  let ds := (← get).rest.take digits
  if ds.length < digits then fail .missingHexNumber .quotedEscape began
  match Digits.number? 16 ds with
  | none => fail .missingHexNumber .quotedEscape began
  | some n =>
    if (0xD800 ≤ n && n ≤ 0xDFFF) || 0x10FFFF < n then fail .badCharacterCode .quotedEscape began
    skipMany digits
    return Char.ofNat n

/-- The character that an escape with the given letter stands for. -/
def escapedBy (letter : Option Char) (began : Mark) : Scan Char := do
  match letter.bind simpleEscape?, letter.bind escapeDigits? with
  | some c, _ =>
    skipMany 2
    return c
  | none, some digits =>
    skipMany 2
    hexChar digits began
  | none, none => fail .unknownEscape .quotedEscape began

/-- A run of characters without gaps, in front of what has been read of the scalar in reverse. The
flag says that it ended at an escaped line break. -/
def quotedRun (single : Bool) (began : Mark) : Nat → List Char → Scan (List Char × Bool)
  | 0, acc => return (acc, false)
  | fuel + 1, acc => do
    match (← get).rest with
    | [] => return (acc, false)
    | c :: more =>
      if isGap c then return (acc, false)
      else if single && c = '\'' && more.head? = some '\'' then
        skipMany 2
        need 2
        quotedRun single began fuel ('\'' :: acc)
      else if c = (if single then '\'' else '"') then return (acc, false)
      else if !single && c = '\\' then
        if atBreak more.head? then
          need 3
          skip
          skipBreak
          return (acc, true)
        else
          let x ← escapedBy more.head? began
          need 2
          quotedRun single began fuel (x :: acc)
      else
        skip
        need 2
        quotedRun single began fuel (c :: acc)

/-- The rest of a scalar behind its opening quote, line by line. -/
def quotedLines (single : Bool) (began : Mark) : Nat → List Char → Scan (List Char)
  | 0, acc => return acc
  | fuel + 1, acc => do
    need 4
    let c ← get
    if c.atDocumentMark then fail .unexpectedDocument .quotedScalar began
    if c.rest.isEmpty then fail .unexpectedEnd .quotedScalar began
    need 2
    let (acc, escaped) ← quotedRun single began c.bound acc
    need 1
    if (← peek) = some (if single then '\'' else '"') then return acc
    let gap ← extendGap 0 .quotedScalar began c.bound (if escaped then .escapedBreak else .empty)
    quotedLines single began fuel (gap.text ++ acc)

def quoted (single : Bool) : Scan Token := do
  let began ← mark
  skip
  let text ← quotedLines single began (← bound) []
  skip
  let style := if single then .singleQuoted else .doubleQuoted
  return ⟨.scalar style (String.ofList text.reverse), began, ← mark⟩

end BootConfig.Yaml.Scan
