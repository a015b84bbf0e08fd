import BootConfig.Yaml.Problem

/-!
# Tokens

What the characters of a text are grouped into, and where each group begins and ends.
-/

namespace BootConfig.Yaml

/-- How a scalar is written. -/
inductive Style where
  | plain
  | singleQuoted
  | doubleQuoted
  | literal
  | folded
deriving DecidableEq

/-- The text of a tag. Its escapes stand for bytes, which need not be well-formed text. -/
abbrev TagText := List UInt8

inductive Token.Kind where
  | streamStart
  | streamEnd
  | version (major minor : Nat)
  | handle (name : String) (replacement : TagText)
  | documentStart
  | documentEnd
  | blockSequenceStart
  | blockMappingStart
  | blockEnd
  | flowSequenceStart
  | flowSequenceEnd
  | flowMappingStart
  | flowMappingEnd
  | blockEntry
  | flowEntry
  | key
  | value
  | aliasOf (name : String)
  | anchor (name : String)
  | tag (handle : String) (suffix : TagText)
  | scalar (style : Style) (text : String)
deriving DecidableEq

structure Token where
  kind : Token.Kind
  start : Mark
  stop : Mark
deriving DecidableEq

end BootConfig.Yaml
