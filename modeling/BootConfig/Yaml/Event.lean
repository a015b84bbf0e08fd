import BootConfig.Yaml.Token

/-!
# Events

The structure of a text as a sequence: documents, collections, scalars and aliases in the order in
which they are written.
-/

namespace BootConfig.Yaml

/-- What may stand in front of a node. -/
structure Properties where
  anchor : Option String
  tag : Option TagText
deriving DecidableEq

def Properties.none : Properties := ⟨Option.none, Option.none⟩

inductive Event.Kind where
  | streamStart
  | streamEnd
  | documentStart
  | documentEnd
  | aliasOf (name : String)
  | scalar (properties : Properties) (style : Style) (text : String)
  | sequenceStart (properties : Properties)
  | sequenceEnd
  | mappingStart (properties : Properties)
  | mappingEnd
deriving DecidableEq

/-- An event and where it is written, its properties included. -/
structure Event where
  kind : Event.Kind
  start : Mark
  stop : Mark
deriving DecidableEq

/-- The empty scalar that is read where a node is missing. -/
def Event.missing (place : Mark) : Event :=
  ⟨.scalar .none .plain "", place, place⟩

end BootConfig.Yaml
