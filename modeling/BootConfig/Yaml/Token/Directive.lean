import BootConfig.Yaml.Token.Tag

/-!
# Directives

A line that begins with `%` states the version of the language or what a tag handle stands for.
-/

namespace BootConfig.Yaml.Scan

/-- The digits of a version number, at most nine. -/
def versionDigits (began : Mark) : Nat → Nat → Scan Nat
  | 0, n => do
    match ← peek with
    | some c => if c.isDigit then fail .longVersion .versionDirective began else return n
    | none => return n
  | room + 1, n => do
    match ← peek with
    | some c =>
      if c.isDigit then
        skip
        need 1
        versionDigits began room (Digits.append 10 n [c])
      else return n
    | none => return n

def versionNumber (began : Mark) : Scan Nat := do
  need 1
  if !(← peek).any Char.isDigit then fail .missingVersion .versionDirective began
  versionDigits began 9 0

/-- The two numbers of a version. -/
def version (began : Mark) : Scan Token.Kind := do
  need 1
  skipWhile isBlank
  let major ← versionNumber began
  if (← peek) ≠ some '.' then fail .missingVersionDot .versionDirective began
  skip
  return .version major (← versionNumber began)

/-- A handle and what it stands for. -/
def handleDefinition (began : Mark) : Scan Token.Kind := do
  need 1
  skipWhile isBlank
  let name ← handle .directive began
  need 1
  if !atBlank (← peek) then fail .missingWhitespace .tagDirective began
  skipWhile isBlank
  let replacement ← uri true .directive [] began
  need 1
  if !atGapOrEnd (← peek) then fail .missingGap .tagDirective began
  return .handle (String.ofList name) replacement

def directiveName (began : Mark) : Scan String := do
  need 1
  let name ← takeWhile isName
  if name.isEmpty then fail .missingDirectiveName .directive began
  if !atGapOrEnd (← peek) then fail .nonAlphabetical .directive began
  return String.ofList name

def directive : Scan Token := do
  let began ← mark
  skip
  let name ← directiveName began
  let kind ←
    if name = "YAML" then version began
    else if name = "TAG" then handleDefinition began
    else fail .unknownDirective .directive began
  let stop ← mark
  skipLineEnd .directive began
  return ⟨kind, began, stop⟩

end BootConfig.Yaml.Scan
