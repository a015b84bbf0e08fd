import BootConfig.Filter.CommandLine

/-!
# The program

Standard input, the arguments and the log setting go in; standard output, standard error and the
exit code come out.
-/

namespace BootConfig.Main

/-- All bytes of a stream behind those read already. -/
partial def readAll (stream : IO.FS.Stream) (acc : ByteArray) : IO ByteArray := do
  let chunk ← stream.read 65536
  if chunk.isEmpty then return acc
  readAll stream (acc ++ chunk)

/-- What standard input supplies. -/
def supply : IO Supply := do
  try
    return ⟨← readAll (← IO.getStdin) .empty, none⟩
  catch e => return ⟨.empty, some (toString e)⟩

/-- Writes the output; a refusal is a fault of its own. -/
def deliver (output : ByteArray) : IO (Option Fault) := do
  try
    let stdout ← IO.getStdout
    stdout.write output
    stdout.flush
    return none
  catch e => return some (.output (toString e))

/-- The program with its arguments. -/
def run (args : List String) : IO UInt32 := do
  let input ← if CommandLine.request args = .convert then supply else pure ⟨.empty, none⟩
  let result := CommandLine.execute args (← IO.getEnv "RUST_LOG") input ⟨none, "", none⟩
  let stderr ← IO.getStderr
  stderr.putStr (result.stderr.getD "error: unexpected argument found\n\nUsage: ignition-inline\n")
  match ← deliver result.stdout with
  | none => return UInt32.ofNat result.exitCode
  | some fault =>
    stderr.putStr ("Error: " ++ fault.message ++ "\n")
    return UInt32.ofNat fault.exitCode

end BootConfig.Main

def main (args : List String) : IO UInt32 :=
  BootConfig.Main.run args
