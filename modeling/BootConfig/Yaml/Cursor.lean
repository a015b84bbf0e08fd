import BootConfig.Yaml.Chars
import BootConfig.Yaml.Problem

/-!
# Reading a text

A cursor is what is left of a text and the place where it begins. A text with a forbidden character
ends, for the cursor, in front of the block of bytes that holds it; whoever asks for more characters
than are left there learns of the problem.
-/

namespace BootConfig.Yaml

/-- What is left of a text. `forbidden` is the offset of a character behind the rest that may not be
read, and `bound` exceeds the number of characters of the whole text. -/
structure Cursor where
  rest : List Char
  mark : Mark
  forbidden : Option Nat
  bound : Nat

namespace Cursor

/-- The number of bytes that are checked at once. -/
def blockSize : Nat := 16384

/-- The characters of the blocks in front of the first one with a forbidden character, and that
character's offset. `block` holds the characters of the current block in reverse, `room` the bytes
it can still take. -/
def readable (done block : List Char) (room offset : Nat) : List Char → List Char × Option Nat
  | [] => ((block ++ done).reverse, none)
  | c :: cs =>
    if c.utf8Size ≤ room then
      if isAllowed c then readable done (c :: block) (room - c.utf8Size) (offset + c.utf8Size) cs
      else (done.reverse, some offset)
    else if isAllowed c then
      readable (block ++ done) [c] (blockSize - c.utf8Size) (offset + c.utf8Size) cs
    else ((block ++ done).reverse, some offset)

/-- A cursor at the start of a text. -/
def ofText (text : List Char) : Cursor :=
  let (rest, forbidden) := readable [] [] blockSize 0 text
  { rest, mark := .start, forbidden, bound := text.length + 1 }

/-- The cursor after one character of a line. -/
def advance (c : Cursor) : Cursor :=
  match c.rest with
  | [] => c
  | x :: xs => { c with rest := xs, mark := c.mark.next x }

/-- A line break as it is read, the number of its bytes, and what follows it. A carriage return with
a line feed is one break; all breaks but the separators of Unicode are read as a line feed. -/
def splitBreak? : List Char → Option (Char × Nat × List Char)
  | '\r' :: '\n' :: xs => some ('\n', 2, xs)
  | x :: xs =>
    if x == lineSeparator || x == paragraphSeparator then some (x, x.utf8Size, xs)
    else if isBreak x then some ('\n', x.utf8Size, xs)
    else none
  | [] => none

/-- A dash or dot three times in a row at the start of a line, with a gap behind it. -/
def atDocumentMark (c : Cursor) : Bool :=
  c.mark.column == 0 &&
    match c.rest with
    | x :: y :: z :: more => (x == '-' || x == '.') && y == x && z == x && atGapOrEnd more.head?
    | _ => false

end Cursor

/-- Reading with a cursor. -/
abbrev Scan := StateT Cursor (Except Problem)

namespace Scan

/-- Makes sure that the next `n` characters, or the end of the text before them, can be seen. -/
def need (n : Nat) : Scan Unit := do
  let c ← get
  match c.forbidden with
  | some offset => if (c.rest.take n).length < n then throw (.forbidden offset)
  | none => pure ()

/-- The next character. -/
def peek : Scan (Option Char) := return (← get).rest.head?

/-- The character after the next `k`. -/
def peekAt (k : Nat) : Scan (Option Char) := return (← get).rest[k]?

def mark : Scan Mark := return (← get).mark

def bound : Scan Nat := return (← get).bound

/-- Takes a character of a line. -/
def skip : Scan Unit := modify Cursor.advance

/-- Takes `n` characters of a line. -/
def skipMany (n : Nat) : Scan Unit := modify fun c => n.repeat Cursor.advance c

/-- Takes the longest run of characters of a class. -/
def takeWhile (p : Char → Bool) : Scan (List Char) := do
  let c ← get
  let run := c.rest.takeWhile p
  set { c with rest := c.rest.dropWhile p, mark := run.foldl Mark.next c.mark }
  need 1
  return run

def skipWhile (p : Char → Bool) : Scan Unit := discard (takeWhile p)

/-- Takes a line break, if there is one, as it is read. -/
def takeBreak : Scan (List Char) := do
  let c ← get
  match Cursor.splitBreak? c.rest with
  | none => return []
  | some (x, bytes, rest) =>
    set { c with rest, mark := c.mark.nextLine bytes }
    return [x]

def skipBreak : Scan Unit := discard takeBreak

/-- Ends with a problem at the cursor. -/
def fail {α : Type} (cause : Cause) (activity : Activity) (began : Mark) : Scan α := do
  throw (.malformed cause (← mark) (some (activity, began)))

/-- Blanks and a comment up to the end of the line, and the line break. -/
def skipLineEnd (activity : Activity) (began : Mark) : Scan Unit := do
  need 1
  skipWhile isBlank
  if (← peek) = some '#' then skipWhile (fun c => !isBreak c)
  if !atLineEnd (← peek) then fail .missingLineEnd activity began
  if atBreak (← peek) then
    need 2
    skipBreak

end Scan

end BootConfig.Yaml
