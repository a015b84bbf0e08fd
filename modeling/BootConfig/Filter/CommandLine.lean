import BootConfig.Filter.Run

/-!
# The command line

The program takes no arguments but those that ask for help or its version. The first argument that
is not the lone `--` decides.
-/

namespace BootConfig.CommandLine

inductive Request where
  | convert
  | help
  | version
  | misuse
deriving DecidableEq

/-- What the arguments ask for. A short option may have others behind it. -/
def request : List String → Request
  | [] => .convert
  | arg :: rest =>
    if arg = "--help" then .help
    else if arg = "--version" then .version
    else if arg = "--" && rest.isEmpty then .convert
    else
      match arg.toList with
      | '-' :: 'h' :: _ => .help
      | '-' :: 'V' :: _ => .version
      | _ => .misuse

def versionText : String := "ignition-inline 0.1.0\n"

def helpText : String :=
  "Filter that converts a YAML Ignition config to JSON, " ++
  "turning inline file contents into data URLs\n\n" ++
  "Usage: ignition-inline\n\n" ++
  "Options:\n" ++
  "  -h, --help     Print help\n" ++
  "  -V, --version  Print version\n"

/-- What a finished program leaves behind. What a misuse prints is not fixed. -/
structure Result where
  exitCode : Nat
  stdout : ByteArray
  stderr : Option String

/-- The lines of a log that a filter shows, and the line of a fault. -/
def report (filter : Log.Filter) (r : Run) : String :=
  let lines := (r.log.filter filter.shows).map fun record => record.line ++ "\n"
  let failure :=
    match r.outcome with
    | .ok () => ""
    | .error f => "Error: " ++ f.message ++ "\n"
  String.join lines ++ failure

/-- The program: arguments, log setting and input to exit code and output. -/
def execute (args : List String) (logSetting : Option String) (supply : Supply) (sink : Sink) :
    Result :=
  match request args with
  | .help => ⟨0, helpText.toUTF8, some ""⟩
  | .version => ⟨0, versionText.toUTF8, some ""⟩
  | .misuse => ⟨2, .empty, none⟩
  | .convert =>
    let r := Run.ofStreams supply sink
    let exitCode :=
      match r.outcome with
      | .ok () => 0
      | .error f => f.exitCode
    ⟨exitCode, r.written, some (report (.ofSetting logSetting) r)⟩

end BootConfig.CommandLine
