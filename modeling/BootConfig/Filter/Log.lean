import BootConfig.Config.Contents

/-!
# Log records

What a run reports about itself, and the filter that decides which of it is shown. A filter is a
list of directives, each of which gives the greatest level shown for the targets that begin with its
own.
-/

namespace BootConfig.Log

/-- How much is shown, from nothing to everything. -/
inductive Level where
  | off
  | error
  | warn
  | info
  | debug
  | trace
deriving DecidableEq

namespace Level

def rank : Level → Nat
  | off => 0
  | error => 1
  | warn => 2
  | info => 3
  | debug => 4
  | trace => 5

def name : Level → String
  | off => "OFF"
  | error => "ERROR"
  | warn => "WARN"
  | info => "INFO"
  | debug => "DEBUG"
  | trace => "TRACE"

def all : List Level := [off, error, warn, info, debug, trace]

/-- A level by its name in any case, or by its rank. -/
def read? (text : String) : Option Level :=
  let upper := String.ofList (text.toList.map Char.toUpper)
  all.find? fun l => l.name = upper || Digits.number? 10 text.toList = some l.rank

end Level

structure Record where
  level : Level
  target : String
  message : String
  fields : List (String × String)
deriving DecidableEq

/-- The line of a record: level, target, message and fields. -/
def Record.line (r : Record) : String :=
  r.level.name ++ " " ++ r.target ++ ": " ++ r.message ++
    String.join (r.fields.map fun (name, value) => " " ++ name ++ "=" ++ value)

/-! ## Filters -/

/-- The greatest level shown for some targets. -/
structure Directive where
  target : String
  level : Level
deriving DecidableEq

abbrev Filter := List Directive

namespace Directive

/-- The characters that a target begins with. -/
def startsTarget (c : Char) : Bool := c.isAlphanum || c == '-' || c == ':' || c == '_'

/-- A level for all targets, `target=level`, or a target of which everything is shown. -/
def read? (text : String) : Option Directive :=
  let cs := text.toList
  if !cs.head?.any startsTarget then none
  else
    let target := String.ofList (cs.takeWhile (· != '='))
    match cs.dropWhile (· != '=') with
    | [] =>
      match Level.read? text with
      | some level => some ⟨"", level⟩
      | none => some ⟨text, .trace⟩
    | [_] => some ⟨target, .trace⟩
    | _ :: level => (Level.read? (String.ofList level)).map (⟨target, ·⟩)

def covers (d : Directive) (target : String) : Bool :=
  d.target.toList.isPrefixOf target.toList

end Directive

namespace Filter

/-- Shows warnings. -/
def default : Filter := [⟨"", .warn⟩]

/-- The parts of a list separated by commas, empty ones left out. -/
def parts (text : String) : List String :=
  (text.splitOn ",").filter (· ≠ "")

/-- Directives separated by commas; without any, errors are shown. -/
def read? (text : String) : Option Filter := do
  let directives ← (parts text).mapM Directive.read?
  return if directives.isEmpty then [⟨"", .error⟩] else directives

/-- The filter that a setting asks for. What is missing or cannot be read asks for the default. -/
def ofSetting (setting : Option String) : Filter :=
  (setting.bind read?).getD default

/-- The directive for a target: of those that cover it the one with the longest target, and of
several with the same target the last. -/
def directive? (f : Filter) (target : String) : Option Directive :=
  (f.filter (·.covers target)).foldl
    (fun best d =>
      match best with
      | none => some d
      | some b => if b.target.length ≤ d.target.length then some d else some b)
    none

def shows (f : Filter) (r : Record) : Bool :=
  match f.directive? r.target with
  | some d => r.level.rank ≤ d.level.rank
  | none => false

end Filter

/-! ## The records of a conversion -/

/-- The input has been read. -/
def ofInput (bytes : Nat) : Record :=
  ⟨.debug, "ignition_inline::stream", "read input document", [("bytes", Digits.decimal bytes)]⟩

/-- What became of the file entry with an index. -/
def ofChange (index : Nat) (change : Contents.Change) : Record :=
  let message :=
    match change with
    | .noContents => "file entry has no contents, leaving it unchanged"
    | .noInline => "file entry has no inline contents, leaving it unchanged"
    | .replaced => "replaced inline contents with data URL"
  ⟨.debug, "ignition_inline::document::files", message, [("path", Contents.entryPath index)]⟩

def ofChanges : Nat → List Contents.Change → List Record
  | _, [] => []
  | index, c :: cs => ofChange index c :: ofChanges (index + 1) cs

/-- Embedding has come to its end. -/
def ofSummary (replaced skipped : Nat) : Record :=
  ⟨.info, "ignition_inline::document", "processed storage.files entries",
    [("rewritten", Digits.decimal replaced), ("skipped", Digits.decimal skipped)]⟩

/-- The records of embedding; the summary is missing where it failed. -/
def ofOutcome (o : Contents.Outcome Tree) : List Record :=
  ofChanges 0 o.changes ++ if o.fault.isSome then [] else [ofSummary o.replaced o.skipped]

end BootConfig.Log
