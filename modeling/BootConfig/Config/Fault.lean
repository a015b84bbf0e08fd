import BootConfig.Config.Contents
import BootConfig.Json.Writer
import BootConfig.Yaml.Fault

/-!
# Faults of a conversion

Why a conversion fails, the message that says so, and the exit code that goes with it.
-/

namespace BootConfig

/-- Why an input cannot be read as text. -/
inductive InputFault where
  | refused (reason : String)
  | notText
deriving DecidableEq

def InputFault.message : InputFault → String
  | refused reason => reason
  | notText => "stream did not contain valid UTF-8"

inductive Fault where
  | input (f : InputFault)
  | output (reason : String)
  | yaml (f : Yaml.Fault)
  | shape (f : ShapeFault)
  | json (f : Json.KeyFault)
deriving DecidableEq

namespace Fault

def message : Fault → String
  | input f => "failed to read standard input: " ++ f.message
  | output reason => "failed to write standard output: " ++ reason
  | yaml f => "failed to parse YAML input: " ++ f.message
  | shape f => f.message
  | json f => "failed to render JSON output: " ++ f.message

/-- Two is the code of a usage error. -/
def exitCode : Fault → Nat
  | input _ | output _ => 1
  | yaml _ => 3
  | shape _ => 4
  | json _ => 5

end Fault

end BootConfig
