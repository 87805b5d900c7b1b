import SqlCanon.Fault

/-!
# Events

What happens inside a run besides its result, as the lines of its log.
-/

namespace SqlCanon

inductive Event where
  | arenaGrown (before after : Nat)
  | rulesRejected (fault : Fault)
  | outputTruncated (written capacity : Nat)
  | retrying (capacity : Nat)
deriving DecidableEq, Repr

def Event.line : Event → String
  | .arenaGrown before after =>
    "TRACE growing lexer arena from " ++ toString before ++ " to " ++ toString after ++ " bytes"
  | .rulesRejected fault => "DEBUG normalizer config rejected: " ++ fault.message
  | .outputTruncated written capacity =>
    "DEBUG normalized output truncated: " ++ toString written ++ " of " ++ toString capacity ++
      " bytes written"
  | .retrying capacity =>
    "DEBUG retrying normalization with " ++ toString capacity ++ " byte buffer"

end SqlCanon
