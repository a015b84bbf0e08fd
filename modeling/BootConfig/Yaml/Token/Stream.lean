import BootConfig.Yaml.Token.Block
import BootConfig.Yaml.Token.Directive
import BootConfig.Yaml.Token.Lexer
import BootConfig.Yaml.Token.Plain
import BootConfig.Yaml.Token.Quoted

/-!
# From characters to tokens

What each character begins, and the tokens of a whole text.
-/

namespace BootConfig.Yaml

namespace Lex

/-! ## Gaps between tokens -/

/-- Takes the spaces of a gap. Tabs count as spaces where no key can begin. -/
def skipBlanks : Lex Unit := do
  let l ← get
  let tabs := l.inFlow || !l.keyAllowed
  scan do
    Scan.need 1
    Scan.skipWhile fun c => c == ' ' || (tabs && c == '\t')

/-- Takes blanks, comments and line breaks. Behind a line break of a block a key may begin. -/
def skipGap : Nat → Lex Unit
  | 0 => return ()
  | fuel + 1 => do
    scan do
      Scan.need 1
      let c ← get
      if c.mark.column = 0 && c.rest.head? = some byteOrderMark then Scan.skip
    skipBlanks
    let next ← scan do
      if (← Scan.peek) = some '#' then Scan.skipWhile fun c => !isBreak c
      Scan.peek
    if atBreak next then
      scan do
        Scan.need 2
        Scan.skipBreak
      if !(← inFlow) then allowKey true
      skipGap fuel

/-! ## Tokens -/

/-- A token of the given number of characters. -/
def indicator (kind : Token.Kind) (length : Nat) : Lex Unit := do
  let start ← mark
  scan (Scan.skipMany length)
  emit ⟨kind, start, ← mark⟩

def streamStart : Lex Unit := do
  let here ← mark
  modify ({ · with started := true, keyAllowed := true })
  emit ⟨.streamStart, here, here⟩

/-- The end of the text counts as the start of a line. -/
def streamEnd : Lex Unit := do
  modify fun l =>
    if l.mark.column = 0 then l
    else
      { l with
        cursor := { l.cursor with mark := { l.mark with column := 0, line := l.mark.line + 1 } } }
  closeBlocks (-1)
  dropKey
  allowKey false
  let here ← mark
  emit ⟨.streamEnd, here, here⟩
  modify ({ · with ended := true })

def directive : Lex Unit := do
  closeBlocks (-1)
  dropKey
  allowKey false
  emit (← scan Scan.directive)

def documentMark (kind : Token.Kind) : Lex Unit := do
  closeBlocks (-1)
  dropKey
  allowKey false
  indicator kind 3

def flowStart (kind : Token.Kind) : Lex Unit := do
  saveKey
  modify fun l => { l with depth := l.depth + 1 }
  allowKey true
  indicator kind 1

def flowEnd (kind : Token.Kind) : Lex Unit := do
  dropKey
  modify fun l => { l with depth := l.depth - 1 }
  allowKey false
  indicator kind 1

def flowEntry : Lex Unit := do
  dropKey
  allowKey true
  indicator .flowEntry 1

/-- Opens a block collection here, where a key may begin. -/
def openBlockHere (kind : Token.Kind) (otherwise : Cause) : Lex Unit := do
  let l ← get
  if !l.inFlow then
    if !l.keyAllowed then throw (.malformed otherwise l.mark none)
    openBlock l.mark.column none kind l.mark

def blockEntry : Lex Unit := do
  openBlockHere .blockSequenceStart .blockEntryNotAllowed
  dropKey
  allowKey true
  indicator .blockEntry 1

def keyIndicator : Lex Unit := do
  openBlockHere .blockMappingStart .keyNotAllowed
  dropKey
  allowKey !(← inFlow)
  indicator .key 1

/-- A colon turns the possible key into one. -/
def valueIndicator : Lex Unit := do
  let l ← get
  match l.key? with
  | some k =>
    modify fun l => (l.insertAt k.number ⟨.key, k.mark, k.mark⟩)
    openBlock k.mark.column (some k.number) .blockMappingStart k.mark
    modify fun l => { l with pending := l.pending.tail }
    allowKey false
  | none =>
    openBlockHere .blockMappingStart .valueNotAllowed
    allowKey !l.inFlow
  indicator .value 1

/-- A token that may begin a key. -/
def keyToken (s : Scan Token) : Lex Unit := do
  saveKey
  allowKey false
  emit (← scan s)

def blockScalar (folded : Bool) : Lex Unit := do
  dropKey
  allowKey true
  emit (← scan (Scan.block folded (← get).indent))

def plainScalar : Lex Unit := do
  saveKey
  allowKey false
  let l ← get
  let (token, broken) ← scan (Scan.plain l.inFlow (l.indent + 1).toNat)
  emit token
  if broken then allowKey true

/-- Whether a plain scalar begins with a character, given the one after it. -/
def startsPlain (inFlow : Bool) (c : Char) (next : Option Char) : Bool :=
  if c = '-' then !atBlank next
  else if c = '?' || c = ':' then !inFlow && !atGapOrEnd next
  else !isGap c && !isIndicator c

/-- The token that begins with a character which is not the end, given the one after it. -/
def tokenAt (c : Char) (next : Option Char) : Lex Unit := do
  let l ← get
  let apart := atGapOrEnd next
  if l.mark.column = 0 && c = '%' then directive
  else if l.cursor.atDocumentMark then
    documentMark (if c = '-' then .documentStart else .documentEnd)
  else if c = '[' then flowStart .flowSequenceStart
  else if c = '{' then flowStart .flowMappingStart
  else if c = ']' then flowEnd .flowSequenceEnd
  else if c = '}' then flowEnd .flowMappingEnd
  else if c = ',' then flowEntry
  else if c = '-' && apart then blockEntry
  else if c = '?' && (l.inFlow || apart) then keyIndicator
  else if c = ':' && (l.inFlow || apart) then valueIndicator
  else if c = '*' then keyToken Scan.aliasOf
  else if c = '&' then keyToken Scan.anchor
  else if c = '!' then keyToken (Scan.tag l.inFlow)
  else if c = '|' && !l.inFlow then blockScalar false
  else if c = '>' && !l.inFlow then blockScalar true
  else if c = '\'' then keyToken (Scan.quoted true)
  else if c = '"' then keyToken (Scan.quoted false)
  else if startsPlain l.inFlow c next then plainScalar
  else throw (.malformed .noTokenStart l.mark (some (.nextToken, l.mark)))

/-- Finds the next tokens. -/
def step : Lex Unit := do
  scan (Scan.need 1)
  if !(← get).started then streamStart
  else
    skipGap (← get).cursor.bound
    expireKeys
    closeBlocks (← mark).column
    scan (Scan.need 4)
    match (← get).cursor.rest with
    | [] => streamEnd
    | c :: more => tokenAt c more.head?
  expireKeys

end Lex

/-- The tokens of a text up to the first problem. -/
structure Tokens where
  list : List Token
  problem : Option Problem

namespace Lexer

/-- Steps up to the end of the text or the first problem. -/
def run : Nat → Lexer → Lexer × Option Problem
  | 0, l => (l, none)
  | fuel + 1, l =>
    if l.ended then (l, none)
    else
      match Lex.step l with
      | .error problem => (l, some problem)
      | .ok ((), l) => run fuel l

end Lexer

/-- Reads a text into tokens. The ones behind a possible key are lost when a problem comes before it
is decided. -/
def Tokens.ofText (text : List Char) : Tokens :=
  let (l, problem) := Lexer.run (text.length + 2) (.ofText text)
  ⟨l.tokens.reverse.take l.released, problem⟩

end BootConfig.Yaml
