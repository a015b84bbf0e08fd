import BootConfig.Json.Writer

/-!
# The layout of JSON texts

What is open around each character of a text, and a text in lines: two spaces for every collection
that is open, and every member and every element of a collection on a line of its own.
-/

namespace BootConfig.Json

/-! ## What is open -/

/-- Whether a character stands in a string, and there behind a backslash. -/
inductive Quoting where
  | outside
  | inside
  | escaped
deriving DecidableEq

/-- What is open in front of a character: a number of collections, and perhaps a string. -/
structure Context where
  opened : Nat
  quoting : Quoting
deriving DecidableEq

def isOpening (c : Char) : Bool := c == '[' || c == '{'

def isClosing (c : Char) : Bool := c == ']' || c == '}'

/-- The bracket that closes what another one opens. -/
def closer (c : Char) : Char := if c = '[' then ']' else '}'

namespace Context

def start : Context := ⟨0, .outside⟩

/-- What is open behind a character. Brackets inside strings do not count. -/
def step (x : Context) (c : Char) : Context :=
  match x.quoting with
  | .outside =>
    if c = '"' then { x with quoting := .inside }
    else if isOpening c then { x with opened := x.opened + 1 }
    else if isClosing c then { x with opened := x.opened - 1 }
    else x
  | .inside =>
    if c = '"' then { x with quoting := .outside }
    else if c = '\\' then { x with quoting := .escaped }
    else x
  | .escaped => { x with quoting := .inside }

/-- What is open behind a text. -/
def behind (text : List Char) : Context := text.foldl step start

end Context

/-! ## Lines -/

/-- A line of a text, without its line break, and what stands in front of it. -/
structure IsLine (text before line : List Char) : Prop where
  part : ∃ after, text = before ++ (line ++ '\n' :: after)
  whole : '\n' ∉ line
  first : before = [] ∨ before.getLast? = some '\n'

/-- The level of a line by what is open in front of it: the collection that it closes first does not
count. -/
def levelOf (x : Context) (content : List Char) : Nat :=
  if content.head?.any isClosing then x.opened - 1 else x.opened

/-- A line break, blanks, and then a member or an element. -/
def BeginsLine (text : List Char) : Prop :=
  ∃ n c rest, text = '\n' :: (List.replicate n ' ' ++ c :: rest) ∧ c ≠ ' ' ∧ c ≠ '\n' ∧
    isClosing c = false

/-- A text in lines. Members and elements are what stands behind the opening bracket of a collection
that is not empty, and behind each comma. -/
structure Layout (text : List Char) : Prop where
  ending : ∃ body c, text = body ++ [c, '\n'] ∧ c ≠ '\n'
  printable : ∀ c ∈ text, c = '\n' ∨ 32 ≤ c.toNat
  unbroken : ∀ before after, text = before ++ '\n' :: after →
    (Context.behind before).quoting = .outside
  indented : ∀ before line, IsLine text before line → ∃ content,
    line = List.replicate (2 * levelOf (Context.behind before) content) ' ' ++ content ∧
    ∃ c ∈ content.head?, c ≠ ' '
  opening : ∀ before c after, text = before ++ c :: after →
    (Context.behind before).quoting = .outside → isOpening c = true →
    after.head? = some (closer c) ∨ BeginsLine after
  closing : ∀ before c after, text = before ++ c :: after →
    (Context.behind before).quoting = .outside → isClosing c = true →
    0 < (Context.behind before).opened
  separated : ∀ before after, text = before ++ ',' :: after →
    (Context.behind before).quoting = .outside → BeginsLine after
  trimmed : ∀ before after, text ≠ before ++ ' ' :: '\n' :: after

end BootConfig.Json
