import BootConfig.Text.Quoted
import BootConfig.Yaml.Resolve

/-!
# Faults of a document

Why a text is no document tree, with the message that says so.
-/

namespace BootConfig.Yaml

/-- Where a node stands in a document. An alias stands in the place of its node and adds nothing. -/
inductive Path where
  | root
  | element (parent : Path) (index : Nat)
  | member (parent : Path) (key : String)
  | unnamed (parent : Path)
  | aliased (parent : Path)
deriving DecidableEq

namespace Path

def text : Path → String
  | root => "."
  | element parent index => parent.text ++ "[" ++ Digits.decimal index ++ "]"
  | member root key => key
  | member parent key => parent.text ++ "." ++ key
  | unnamed root => "?"
  | unnamed parent => parent.text ++ ".?"
  | aliased parent => parent.text

/-- The start of a message about a node. -/
def lead (p : Path) : String :=
  if p.text = "." then "" else p.text ++ ": "

end Path

/-- Why the value of a merge key cannot be merged. -/
inductive MergeFault where
  | scalar
  | tagged
  | scalarElement
  | sequenceElement
deriving DecidableEq

def MergeFault.message : MergeFault → String
  | scalar => "expected a mapping or list of mappings for merging, but found scalar"
  | tagged => "unexpected tagged value in merge"
  | scalarElement => "expected a mapping for merging, but found scalar"
  | sequenceElement => "expected a mapping for merging, but found sequence"

/-- What no tree is made from. -/
inductive Refused where
  | bytes
  | wrapper
deriving DecidableEq

def Refused.message : Refused → String
  | bytes => "byte array"
  | wrapper => "newtype struct"

inductive Fault where
  | problem (p : Problem)
  | unknownAnchor (mark : Mark)
  | endOfItems
  | moreDocuments
  | recursionLimit (mark : Mark)
  | repetitionLimit
  | invalidValue (path : Path) (text : String) (form : Form) (mark : Mark)
  | merge (m : MergeFault)
  | refused (r : Refused)
deriving DecidableEq

def Fault.ofBreak : Option Break → Fault
  | some (.problem p) => .problem p
  | some (.unknownAnchor mark) => .unknownAnchor mark
  | none => .endOfItems

def Fault.message : Fault → String
  | problem p => p.message
  | unknownAnchor mark => "unknown anchor" ++ mark.suffix
  | endOfItems => "EOF while parsing a value"
  | moreDocuments => "deserializing from YAML containing more than one document is not supported"
  | recursionLimit mark => "recursion limit exceeded" ++ mark.suffix
  | repetitionLimit => "repetition limit exceeded"
  | invalidValue path text form mark =>
    path.lead ++ "invalid value: string " ++ Quoted.quote text ++ ", expected " ++ form.message ++
      mark.suffix
  | merge m => m.message
  | refused r => "invalid type: " ++ r.message ++ ", expected any YAML value"

end BootConfig.Yaml
