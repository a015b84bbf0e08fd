import BootConfig.Config.Fault
import BootConfig.Yaml.Merge
import BootConfig.Yaml.Node

/-!
# Converting a configuration

A text is read as a tree with its merge keys applied, the inline contents of its files are replaced,
and the tree is written as JSON.
-/

namespace BootConfig

/-- The tree of a text, merge keys applied. -/
def readDocument (text : String) : Except Fault Tree :=
  match Yaml.read text with
  | .error f => .error (.yaml f)
  | .ok t =>
    match Yaml.Merge.expand t with
    | .error f => .error (.yaml (.merge f))
    | .ok t => .ok t

/-- The JSON text of a tree. -/
def writeDocument (document : Tree) : Except Fault String :=
  (Json.render document).mapError .json

/-- What a conversion came to, and what embedding left of its document if it could be read. -/
structure Conversion where
  outcome : Option (Contents.Outcome Tree)
  result : Except Fault String

namespace Conversion

/-- The JSON text of a document whose inline texts are embedded. -/
def ofOutcome (o : Contents.Outcome Tree) : Conversion :=
  { outcome := some o
    result :=
      match o.fault with
      | some f => .error (.shape f)
      | none => writeDocument o.value }

def ofText (text : String) : Conversion :=
  match readDocument text with
  | .error f => ⟨none, .error f⟩
  | .ok document => ofOutcome (Contents.embed document)

end Conversion

/-- Converts a text to JSON with data URLs for inline contents. -/
def convert (text : String) : Except Fault String :=
  (Conversion.ofText text).result

end BootConfig
