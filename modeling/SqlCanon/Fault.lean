/-!
# Faults

What can go wrong, by cause, and the message that reports each cause.
-/

namespace SqlCanon

inductive ReadFault where
  | missing
  | directory
  | notText
  /-- Anything else, in the words of the system. -/
  | other (text : String)
deriving DecidableEq, Repr

def ReadFault.message : ReadFault → String
  | .missing => "No such file or directory (os error 2)"
  | .directory => "Is a directory (os error 21)"
  | .notText => "stream did not contain valid UTF-8"
  | .other text => text

inductive ConfigurationFault where
  | backticksAddedAndStripped
  /-- The rules put a space before a parenthesis without adding backticks. -/
  | spaceWithoutBackticks
  | unknownCase (name : String)
  | notNumber (setting value : String)
  | notBoolean (setting value : String)
  | emptyInitialBuffer
  /-- A violation that a caller words itself. -/
  | stated (reason : String)
deriving DecidableEq, Repr

def ConfigurationFault.message : ConfigurationFault → String
  | .backticksAddedAndStripped =>
    "put_backtick_on_keywords and remove_backtick_on_keywords cannot be both true"
  | .spaceWithoutBackticks =>
    "put_space_before_open_paren requires put_backtick_on_keywords to be true"
  | .unknownCase name => "unknown keyword case '" ++ name ++ "', expected default|lower|upper"
  | .notNumber setting value => setting ++ " is not a number: '" ++ value ++ "'"
  | .notBoolean setting value => setting ++ " expects a boolean, got '" ++ value ++ "'"
  | .emptyInitialBuffer => "initial_buffer_size must be greater than 0"
  | .stated reason => reason

inductive Fault where
  | unreadable (cause : ReadFault)
  | malformedSettings
  | configuration (cause : ConfigurationFault)
  | bufferTooSmall (written capacity : Nat)
  | malformedQuery (reason : String)
deriving DecidableEq, Repr

namespace Fault

def message : Fault → String
  | unreadable cause => "I/O error: " ++ cause.message
  | malformedSettings => "Config decode error: not a settings document"
  | configuration cause => "Configuration error: " ++ cause.message
  | bufferTooSmall written capacity =>
    "buffer too small: wrote " ++ toString written ++ " of " ++ toString capacity ++
      " bytes before running out of space"
  | malformedQuery reason => "SQL parsing error: " ++ reason

def isBufferTooSmall : Fault → Bool
  | bufferTooSmall .. => true
  | _ => false

def isConfiguration : Fault → Bool
  | configuration _ => true
  | _ => false

end Fault

end SqlCanon
