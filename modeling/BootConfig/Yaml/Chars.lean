/-!
# Character classes

The classes that tokens are told apart by. The end of the text counts as a blank and as a line
break, so the tests that look ahead take an optional character.
-/

namespace BootConfig.Yaml

/-- The byte order mark. -/
def byteOrderMark : Char := '\uFEFF'

def lineSeparator : Char := '\u2028'

def paragraphSeparator : Char := '\u2029'

def nextLine : Char := '\u0085'

/-- The characters that a text may hold. -/
def isAllowed (c : Char) : Bool :=
  let n := c.toNat
  c == '\t' || c == '\n' || c == '\r' || (0x20 ≤ n && n ≤ 0x7E) || n == 0x85 ||
    (0xA0 ≤ n && n ≤ 0xD7FF) || (0xE000 ≤ n && n ≤ 0xFFFD) || 0x10000 ≤ n

def isBreak (c : Char) : Bool :=
  c == '\n' || c == '\r' || c == nextLine || c == lineSeparator || c == paragraphSeparator

def isBlank (c : Char) : Bool := c == ' ' || c == '\t'

def isGap (c : Char) : Bool := isBlank c || isBreak c

/-- The characters of anchors, handles and directive names. -/
def isName (c : Char) : Bool := c.isAlphanum || c == '_' || c == '-'

/-- The characters of tags, apart from those of names and escapes. -/
def isUriMark (c : Char) : Bool := ";/?:@&=+$.!~*'()".toList.contains c

/-- The collection indicators that end a plain scalar inside brackets. -/
def isFlowIndicator (c : Char) : Bool := c == ',' || c == '[' || c == ']' || c == '{' || c == '}'

/-- The characters that no plain scalar begins with, whatever follows. -/
def isIndicator (c : Char) : Bool := ",[]\x7b\x7d#&*!|>'\"%@`".toList.contains c

/-! ## Tests that look ahead -/

def atBlank (c : Option Char) : Bool := c.any isBlank

def atBreak (c : Option Char) : Bool := c.any isBreak

def atGap (c : Option Char) : Bool := c.any isGap

/-- A line break or the end. -/
def atLineEnd (c : Option Char) : Bool := c.all isBreak

/-- A blank, a line break or the end. -/
def atGapOrEnd (c : Option Char) : Bool := c.all isGap

end BootConfig.Yaml
