import BootConfig.Yaml.Cursor
import BootConfig.Yaml.Token

/-!
# Reading tokens

Block collections are opened and closed by indentation. A key of a mapping is recognised only at its
colon, so a token that may turn out to begin one is remembered, and the tokens that open it are put
in front of it afterwards. Until that is decided nobody may use the tokens from there on.
-/

namespace BootConfig.Yaml

/-- A token that a colon would turn into the start of a key: its flow depth, its number, and whether
nothing else fits its place. -/
structure PendingKey where
  depth : Nat
  required : Bool
  number : Nat
  mark : Mark
deriving DecidableEq

namespace PendingKey

/-- The greatest number of bytes between a key's start and its colon. -/
def reach : Nat := 1024

/-- A key ends on its line and within its reach. -/
def isStale (k : PendingKey) (here : Mark) : Bool :=
  k.mark.line < here.line || k.mark.offset + reach < here.offset

end PendingKey

/-- The state between two tokens. `columns` are the open block collections, `pending` the possible
keys and `tokens` what was found so far, each with the innermost or newest first. -/
structure Lexer where
  cursor : Cursor
  started : Bool
  ended : Bool
  depth : Nat
  columns : List Nat
  pending : List PendingKey
  keyAllowed : Bool
  tokens : List Token
  count : Nat

/-- Reading tokens. -/
abbrev Lex := StateT Lexer (Except Problem)

namespace Lexer

def ofText (text : List Char) : Lexer :=
  { cursor := .ofText text, started := false, ended := false, depth := 0, columns := [],
    pending := [], keyAllowed := false, tokens := [], count := 0 }

/-- The column of the innermost block collection, -1 if there is none. -/
def indent (l : Lexer) : Int :=
  match l.columns with
  | [] => -1
  | c :: _ => c

def inFlow (l : Lexer) : Bool := l.depth != 0

def mark (l : Lexer) : Mark := l.cursor.mark

/-- The possible key of the current depth. -/
def key? (l : Lexer) : Option PendingKey :=
  match l.pending with
  | k :: _ => if k.depth = l.depth then some k else none
  | [] => none

/-- The number of tokens that may be used already. -/
def released (l : Lexer) : Nat :=
  l.pending.foldl (fun n k => min n k.number) l.count

/-- Adds a token at the end. -/
def push (l : Lexer) (t : Token) : Lexer :=
  { l with tokens := t :: l.tokens, count := l.count + 1 }

/-- Adds a token in front of the one with the given number. -/
def insertAt (l : Lexer) (number : Nat) (t : Token) : Lexer :=
  let after := l.count - number
  { l with tokens := l.tokens.take after ++ t :: l.tokens.drop after, count := l.count + 1 }

/-- Whether a block collection stands right of a column. -/
def isRightOf (column : Int) (c : Nat) : Bool := column < (c : Int)

end Lexer

namespace Lex

/-- Reads with the cursor. -/
def scan {α : Type} (s : Scan α) : Lex α := fun l =>
  match s l.cursor with
  | .ok (a, cursor) => .ok (a, { l with cursor })
  | .error problem => .error problem

def mark : Lex Mark := return (← get).mark

def inFlow : Lex Bool := return (← get).inFlow

def emit (t : Token) : Lex Unit := modify (·.push t)

def allowKey (allowed : Bool) : Lex Unit := modify ({ · with keyAllowed := allowed })

/-- The problem of a required key without its colon. -/
def missingColon (k : PendingKey) : Lex Unit := do
  throw (.malformed .missingColon (← mark) (some (.simpleKey, k.mark)))

/-- Gives up the keys that are out of reach. -/
def expireKeys : Lex Unit := do
  let l ← get
  if l.pending.any (·.isStale l.mark) then
    match l.pending.find? fun k => k.required && k.isStale l.mark with
    | some k => missingColon k
    | none => set { l with pending := l.pending.filter fun k => !k.isStale l.mark }

/-- Gives up the possible key of the current depth. -/
def dropKey : Lex Unit := do
  let l ← get
  match l.key? with
  | none => return
  | some k =>
    if k.required then missingColon k
    set { l with pending := l.pending.tail }

/-- Remembers that the next token may begin a key. -/
def saveKey : Lex Unit := do
  let l ← get
  if l.keyAllowed then
    dropKey
    let k : PendingKey :=
      { depth := l.depth
        required := !l.inFlow && l.indent == l.mark.column
        number := l.count
        mark := l.mark }
    modify fun l => { l with pending := k :: l.pending }

/-- Opens a block collection at a column right of the innermost one, in front of the token with the
given number or at the end. -/
def openBlock (column : Nat) (number : Option Nat) (kind : Token.Kind) (place : Mark) : Lex Unit :=
  modify fun l =>
    if !l.inFlow && l.indent < (column : Int) then
      let l := { l with columns := column :: l.columns }
      let t : Token := ⟨kind, place, place⟩
      match number with
      | some n => l.insertAt n t
      | none => l.push t
    else l

/-- Closes the block collections right of a column. -/
def closeBlocks (column : Int) : Lex Unit :=
  modify fun l =>
    if l.inFlow then l
    else
      let closed := (l.columns.takeWhile (Lexer.isRightOf column)).length
      { l with
        columns := l.columns.dropWhile (Lexer.isRightOf column)
        tokens := List.replicate closed ⟨.blockEnd, l.mark, l.mark⟩ ++ l.tokens
        count := l.count + closed }

end Lex

end BootConfig.Yaml
