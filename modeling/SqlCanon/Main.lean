import SqlCanon.Command.Run

/-!
# The command line program
-/

namespace SqlCanon

partial def readAll (stream : IO.FS.Stream) (read : ByteArray) : IO ByteArray := do
  let chunk ← stream.read 65536
  if chunk.isEmpty then return read else readAll stream (read ++ chunk)

def contentAt (path : String) : IO (Except ReadFault Bytes) := do
  try
    return .ok (← IO.FS.readBinFile path).data.toList
  catch
    | .noFileOrDirectory .. => return .error .missing
    | .inappropriateType .. => return .error .directory
    | e => return .error (.other (toString e))

def variableNames : List String :=
  ["SQLNORM_LOG_LEVEL", "SQLNORM_BUFFER_SIZE", "SQLNORM_KEYWORD_CASE", "SQLNORM_REMOVE_LITERALS"]

def configPath? : Request → Option String
  | .run i => i.configPath
  | .version => none

def surroundings (r : Request) : IO Surroundings := do
  let values ← variableNames.mapM fun name => do
    return (name, (← IO.getEnv name).map Utf8.encode)
  let file ← match configPath? r with
    | some path => contentAt path
    | none => pure (.error .missing)
  let input ← match r with
    | .run i => if i.command.readsInput then readAll (← IO.getStdin) .empty else pure .empty
    | .version => pure .empty
  return {
    environment := fun name => (values.lookup name).join
    contentOf := fun _ => file
    input := input.data.toList }

end SqlCanon

def main (args : List String) : IO UInt32 := do
  match SqlCanon.Arguments.read? args with
  | none =>
    IO.eprintln "usage: sqlnorm [-c FILE] [--log-level LEVEL] [normalize|fingerprint|tokens|info]"
    return 2
  | some r =>
    let ending := SqlCanon.Run.request r (← SqlCanon.surroundings r)
    (← IO.getStdout).write ⟨ending.printed.toArray⟩
    match ending.failure with
    | none => return 0
    | some failure =>
      IO.eprintln ("Error: " ++ "\nCaused by: ".intercalate (failure.reasons.map (·.message)))
      return 1
