/-
# HgToGit.Failure -- why a line is refused

A failure is a cause. Its kind is the coarse classification that reports show, and its
message is what a catalog words. Several causes can share a kind, and two causes of one kind
can have different messages.
-/
import HgToGit.Message

namespace HgToGit

/-- The kinds of failure. -/
inductive FailureKind where
  /-- No command of the table is on the line. -/
  | unrecognizedCommand
  /-- The command exists and has no counterpart. -/
  | unsupportedOperation
  /-- Flags exclude each other. -/
  | incompatibleOptions
  /-- A flag is missing. -/
  | missingRequiredOption
  /-- There are too few or too many arguments. -/
  | argumentCountViolation
  /-- The engine refused. -/
  | engineFailure
  deriving DecidableEq, Repr

/-- The tag of a kind in reports. -/
def FailureKind.text : FailureKind → String
  | unrecognizedCommand => "unrecognized_command"
  | unsupportedOperation => "unsupported_operation"
  | incompatibleOptions => "incompatible_options"
  | missingRequiredOption => "missing_required_option"
  | argumentCountViolation => "argument_count_violation"
  | engineFailure => "engine_failure"

/-- The causes for which a line is refused. -/
inductive Failure where
  /-- The line is no command of the table. -/
  | unrecognized (line : String)
  /-- There is no status. -/
  | statusUnsupported
  /-- Two flags that exclude each other were both given. -/
  | incompatible (first second : String)
  /-- A command lacks a flag that it needs. -/
  | optionRequired (option command : String)
  /-- A rebase says neither where to go nor what to move. -/
  | destinationMissing
  /-- A log does not follow the history. -/
  | followMissing
  /-- There are fewer arguments than `lower`. -/
  | tooFew (lower : Nat) (what : String)
  /-- There are more arguments than `upper`. -/
  | tooMany (upper : Nat) (what : String)
  /-- General arguments were given to a command that takes none. -/
  | generalRefused
  /-- The engine refused an operation, for a reason of its own. -/
  | engineRejected (reason : String)
  deriving DecidableEq, Repr

namespace Failure

/-- The kind of a failure. -/
def kind : Failure → FailureKind
  | unrecognized _ => .unrecognizedCommand
  | statusUnsupported => .unsupportedOperation
  | incompatible _ _ => .incompatibleOptions
  | optionRequired _ _ | destinationMissing | followMissing => .missingRequiredOption
  | tooFew _ _ | tooMany _ _ | generalRefused => .argumentCountViolation
  | engineRejected _ => .engineFailure

/-- What is said about a failure. -/
def message : Failure → Message
  | unrecognized line => (Message.plain .commandNotSupported).about "command" line
  | statusUnsupported => .plain .statusMissing
  | incompatible first second =>
    ((Message.plain .optionsIncompatible).about "first" first).about "second" second
  | optionRequired option command =>
    ((Message.plain .optionRequired).about "option" option).about "command" command
  | destinationMissing => .plain .rebaseNeedsDestination
  | followMissing => .plain .logNeedsFollow
  | tooFew lower what =>
    ((Message.plain .tooFewArguments).about "lower" (toString lower)).about "what" what
  | tooMany upper what =>
    ((Message.plain .tooManyArguments).about "upper" (toString upper)).about "what" what
  | generalRefused => .plain .generalArgumentsRefused
  | engineRejected reason =>
    (Message.plain .engineFailure).about "message" ("engine rejected operation: " ++ reason)

/-- Requires a count of arguments to lie within bounds. -/
def checkBounds (count min max : Nat) (what : String) : Except Failure Unit :=
  if count < min then .error (.tooFew min what)
  else if count > max then .error (.tooMany max what)
  else .ok ()

end Failure

end HgToGit
