import BootConfig.Config.Convert
import BootConfig.Filter.Log

/-!
# One run

The whole input is read before anything is converted, and output is written only when all of it has
been made: a run that fails before then writes nothing.
-/

namespace BootConfig

/-- What can be read: bytes, and then either the end or a refusal. -/
structure Supply where
  bytes : ByteArray
  refusal : Option String

/-- What takes the output: at most `room` bytes, if it is limited; a longer output is taken in part
and then refused. A flush may be refused as well. -/
structure Sink where
  room : Option Nat
  refusal : String
  flushRefusal : Option String

structure Run where
  written : ByteArray
  outcome : Except Fault Unit
  log : List Log.Record

/-- The text of an input. -/
def Supply.text (s : Supply) : Except InputFault String :=
  match s.refusal with
  | some reason => .error (.refused reason)
  | none =>
    match String.fromUTF8? s.bytes with
    | some text => .ok text
    | none => .error .notText

/-- A flush after all output has been taken. -/
def Sink.flush (s : Sink) : Except Fault Unit :=
  match s.flushRefusal with
  | some reason => .error (.output reason)
  | none => .ok ()

/-- What a sink takes of an output, and why not all of it. -/
def Sink.write (s : Sink) (output : ByteArray) : ByteArray × Except Fault Unit :=
  match s.room with
  | some room =>
    if room < output.size then (output.extract 0 room, .error (.output s.refusal))
    else (output, s.flush)
  | none => (output, s.flush)

/-- Converts the supplied text and writes the result. -/
def Run.ofStreams (supply : Supply) (sink : Sink) : Run :=
  match supply.text with
  | .error f => ⟨.empty, .error (.input f), []⟩
  | .ok text =>
    let c := Conversion.ofText text
    let log := Log.ofInput text.utf8ByteSize :: (c.outcome.map Log.ofOutcome).getD []
    match c.result with
    | .error f => ⟨.empty, .error f, log⟩
    | .ok json =>
      let (written, outcome) := sink.write json.toUTF8
      ⟨written, outcome, log⟩

end BootConfig
