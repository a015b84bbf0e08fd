import BootConfig.Text.Digits

/-!
# Places and problems

Where in the text something stands, what may be wrong there, and the message that says so.
-/

namespace BootConfig.Yaml

/-- A place in the text: its distance from the start in bytes, and its line and column, counted in
characters from zero. -/
structure Mark where
  offset : Nat
  line : Nat
  column : Nat
deriving DecidableEq, Inhabited

namespace Mark

def start : Mark := ⟨0, 0, 0⟩

/-- The place of the first character, which messages leave out. -/
def isFirst (m : Mark) : Bool := m.line == 0 && m.column == 0

/-- The place after a character of the same line. -/
def next (m : Mark) (c : Char) : Mark :=
  ⟨m.offset + c.utf8Size, m.line, m.column + 1⟩

/-- The place after a line break of the given number of bytes. -/
def nextLine (m : Mark) (bytes : Nat) : Mark :=
  ⟨m.offset + bytes, m.line + 1, 0⟩

def text (m : Mark) : String :=
  "line " ++ Digits.decimal (m.line + 1) ++ " column " ++ Digits.decimal (m.column + 1)

/-- The end of a message that names a place. -/
def suffix (m : Mark) : String :=
  if m.isFirst then "" else " at " ++ m.text

end Mark

/-- What is wrong with a text. -/
inductive Cause where
  | noTokenStart
  | missingColon
  | blockEntryNotAllowed
  | keyNotAllowed
  | valueNotAllowed
  | unknownDirective
  | missingLineEnd
  | missingDirectiveName
  | nonAlphabetical
  | missingVersionDot
  | longVersion
  | missingVersion
  | missingWhitespace
  | missingGap
  | missingName
  | missingTagEnd
  | missingTagMark
  | missingUri
  | missingOctet
  | badLeadingOctet
  | badTrailingOctet
  | zeroIndentation
  | tabInIndentation
  | unexpectedDocument
  | unexpectedEnd
  | unknownEscape
  | missingHexNumber
  | badCharacterCode
  | unexpectedColon
  | tabViolatesIndentation
  | missingDocumentStart
  | undefinedHandle
  | missingContent
  | missingDash
  | missingKey
  | missingSequenceComma
  | missingMappingComma
  | duplicateVersion
  | incompatibleVersion
  | duplicateHandle
deriving DecidableEq

def Cause.message : Cause → String
  | noTokenStart => "found character that cannot start any token"
  | missingColon => "could not find expected ':'"
  | blockEntryNotAllowed => "block sequence entries are not allowed in this context"
  | keyNotAllowed => "mapping keys are not allowed in this context"
  | valueNotAllowed => "mapping values are not allowed in this context"
  | unknownDirective => "found unknown directive name"
  | missingLineEnd => "did not find expected comment or line break"
  | missingDirectiveName => "could not find expected directive name"
  | nonAlphabetical => "found unexpected non-alphabetical character"
  | missingVersionDot => "did not find expected digit or '.' character"
  | longVersion => "found extremely long version number"
  | missingVersion => "did not find expected version number"
  | missingWhitespace => "did not find expected whitespace"
  | missingGap => "did not find expected whitespace or line break"
  | missingName => "did not find expected alphabetic or numeric character"
  | missingTagEnd => "did not find the expected '>'"
  | missingTagMark => "did not find expected '!'"
  | missingUri => "did not find expected tag URI"
  | missingOctet => "did not find URI escaped octet"
  | badLeadingOctet => "found an incorrect leading UTF-8 octet"
  | badTrailingOctet => "found an incorrect trailing UTF-8 octet"
  | zeroIndentation => "found an indentation indicator equal to 0"
  | tabInIndentation => "found a tab character where an indentation space is expected"
  | unexpectedDocument => "found unexpected document indicator"
  | unexpectedEnd => "found unexpected end of stream"
  | unknownEscape => "found unknown escape character"
  | missingHexNumber => "did not find expected hexadecimal number"
  | badCharacterCode => "found invalid Unicode character escape code"
  | unexpectedColon => "found unexpected ':'"
  | tabViolatesIndentation => "found a tab character that violates indentation"
  | missingDocumentStart => "did not find expected <document start>"
  | undefinedHandle => "found undefined tag handle"
  | missingContent => "did not find expected node content"
  | missingDash => "did not find expected '-' indicator"
  | missingKey => "did not find expected key"
  | missingSequenceComma => "did not find expected ',' or ']'"
  | missingMappingComma => "did not find expected ',' or '\x7d'"
  | duplicateVersion => "found duplicate %YAML directive"
  | incompatibleVersion => "found incompatible YAML document"
  | duplicateHandle => "found duplicate %TAG directive"

/-- What was being read when a problem came up. -/
inductive Activity where
  | nextToken
  | simpleKey
  | directive
  | versionDirective
  | tagDirective
  | tagDirectiveUri
  | directiveHandleStart
  | directiveHandle
  | anchor
  | aliasName
  | tag
  | tagUri
  | blockScalar
  | quotedScalar
  | quotedEscape
  | plainScalar
  | node
  | blockNode
  | flowNode
  | blockCollection
  | blockMapping
  | flowSequence
  | flowMapping
deriving DecidableEq

def Activity.message : Activity → String
  | nextToken => "while scanning for the next token"
  | simpleKey => "while scanning a simple key"
  | directive => "while scanning a directive"
  | versionDirective => "while scanning a %YAML directive"
  | tagDirective => "while scanning a %TAG directive"
  | tagDirectiveUri => "while parsing a %TAG directive"
  | directiveHandleStart => "while scanning a tag directive"
  | directiveHandle => "while parsing a tag directive"
  | anchor => "while scanning an anchor"
  | aliasName => "while scanning an alias"
  | tag => "while scanning a tag"
  | tagUri => "while parsing a tag"
  | blockScalar => "while scanning a block scalar"
  | quotedScalar => "while scanning a quoted scalar"
  | quotedEscape => "while parsing a quoted scalar"
  | plainScalar => "while scanning a plain scalar"
  | node => "while parsing a node"
  | blockNode => "while parsing a block node"
  | flowNode => "while parsing a flow node"
  | blockCollection => "while parsing a block collection"
  | blockMapping => "while parsing a block mapping"
  | flowSequence => "while parsing a flow sequence"
  | flowMapping => "while parsing a flow mapping"

/-- Why a text cannot be read: a character that no text may hold, or a cause at a place, met during
an activity that began at another. -/
inductive Problem where
  | forbidden (offset : Nat)
  | malformed (cause : Cause) (place : Mark) (context : Option (Activity × Mark))
deriving DecidableEq

/-- The part of a message that names the activity. Its place is left out where it is the problem's
own. -/
def contextText (place : Mark) : Option (Activity × Mark) → String
  | none => ""
  | some (activity, began) =>
    ", " ++ activity.message ++
      (if began.line == place.line && began.column == place.column then "" else began.suffix)

def Problem.message : Problem → String
  | forbidden offset =>
    "control characters are not allowed" ++
      (if offset = 0 then "" else " at position " ++ Digits.decimal offset)
  | malformed cause place context => cause.message ++ place.suffix ++ contextText place context

end BootConfig.Yaml
