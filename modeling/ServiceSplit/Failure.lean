import ServiceSplit.Deploy.Phase
import ServiceSplit.Printer.Piece

/-!
# Failures

Everything that can stop a run, from a syntax error to a cluster that does not answer. A failure is
a cause; its texts are functions of it.
-/

namespace ServiceSplit

/-- Refusals of the operating system. -/
inductive OsError where
  | noEntry | notDirectory | isDirectory | entryExists | nameTooLong
  /-- An argument of a program has too many bytes. -/
  | argumentTooLong
  /-- A text for a program has a zero byte in it. -/
  | zeroByte
  /-- Any other refusal, with its text. -/
  | other (text : String)
deriving DecidableEq, Repr, Inhabited

/-- The text of a refusal of the operating system. -/
def OsError.message : OsError → String
  | noEntry => "No such file or directory (os error 2)"
  | notDirectory => "Not a directory (os error 20)"
  | isDirectory => "Is a directory (os error 21)"
  | entryExists => "File exists (os error 17)"
  | nameTooLong => "File name too long (os error 36)"
  | argumentTooLong => "Argument list too long (os error 7)"
  | zeroByte => "nul byte found in provided data"
  | other text => text

/-- Why a channel cannot become a callback. -/
inductive ChannelMisuse where
  | redeclared | otherUse | selectCase
deriving DecidableEq, Repr, Inhabited

/-- The text of a misuse of a channel. -/
def ChannelMisuse.reason : ChannelMisuse → String
  | redeclared => "it is redeclared inside the function"
  | otherUse => "it is used other than as a send target"
  | selectCase => "it is sent on inside a select case"

/-- The steps from an artifact to a running workload. -/
inductive Step where
  | build | container | push | scheduling
deriving DecidableEq, Repr, Inhabited

/-- What goes wrong while an artifact is built or started. -/
inductive Fault where
  /-- The launched function is declared without a body. -/
  | noBody
  /-- The launched function is not known. -/
  | unknownFunction
  /-- A launch has no service to dispatch to. -/
  | noService
  /-- A program cannot be started. -/
  | cannotStart (program : String) (error : OsError)
  /-- A program ends with a status other than zero. -/
  | exited (program : String) (status : Nat) (stderr : String)
  /-- The cluster does not tell the name of a new workload. -/
  | noWorkloadName
  /-- The status of a workload cannot be read. -/
  | unreadableStatus
  /-- A workload ended before it could be used. -/
  | stopped (workload : String) (phase : Phase)
  /-- A workload was not running at any attempt. -/
  | notRunning (workload : String) (attempts : Nat)
  /-- A service the controller dispatches to has no address. -/
  | noAddress (service : String)
  /-- A platform tells its own reason. -/
  | told (reason : String)
deriving DecidableEq, Repr, Inhabited

/-- The text of a fault. -/
def Fault.message : Fault → String
  | noBody => "function has no body"
  | unknownFunction => "launched function is missing from the symbol table"
  | noService => "launch refers to a service that was not synthesized"
  | cannotStart program error => "failed to spawn " ++ program ++ ": " ++ error.message
  | exited program status stderr =>
    let text := program ++ " exited with exit status: " ++ Text.decimal status
    if stderr.isEmpty then text else text ++ ": " ++ stderr
  | noWorkloadName => "kubectl did not report a pod name"
  | unreadableStatus => "unreadable pod status"
  | stopped workload phase => "workload " ++ workload ++ " stopped (" ++ phase.name ++ ")"
  | notRunning workload attempts =>
    "workload " ++ workload ++ " not running after " ++ Text.decimal attempts ++ " attempts"
  | noAddress service => "no address for service `" ++ service ++ "`"
  | told reason => reason

/-- What is wrong with a configuration. -/
inductive ConfigFault where
  /-- The text is no configuration: bad form, an unknown key, a wrong type or a number out of
  range. -/
  | unreadable
  | emptyHost
  | zeroPort
  | emptyRegistry
  | zeroAttempts
deriving DecidableEq, Repr, Inhabited

/-- The text of a fault of a configuration. -/
def ConfigFault.message : ConfigFault → String
  | unreadable => "the text is not a configuration"
  | emptyHost => "controller.host must not be empty"
  | zeroPort => "controller.port must be non-zero"
  | emptyRegistry => "registry.location must not be empty"
  | zeroAttempts => "scheduler.max_attempts must be at least 1"

/-- Everything that can stop a run. -/
inductive Failure where
  /-- The program at `path` is refused. -/
  | badSyntax (path : String) (errors : List SyntaxError)
  /-- A launched function may send twice on a channel. -/
  | secondSend (function channel : String) (span : Span)
  /-- A launched function does something with a channel that a callback cannot do. -/
  | channelMisuse (function channel : String) (misuse : ChannelMisuse) (span : Span)
  /-- A launched function refers to a variable of the package. -/
  | packageVariable (function name : String) (span : Span)
  /-- A program that was put together has no text. -/
  | unprintable (artifact : String) (error : PrintError)
  /-- A step on the way to a running workload fails. -/
  | step (step : Step) (artifact : String) (fault : Fault)
  /-- The configuration at `path` is refused. -/
  | config (path : String) (fault : ConfigFault)
  /-- A file cannot be accessed. -/
  | access (path : String) (error : OsError)
deriving DecidableEq, Repr, Inhabited

/-- The text of the step that failed. -/
def Step.failed : Step → String → String
  | build, artifact => "build of `" ++ artifact ++ "` failed: "
  | container, artifact => "container image for `" ++ artifact ++ "` failed: "
  | push, artifact => "pushing image for `" ++ artifact ++ "` failed: "
  | scheduling, artifact => "scheduling `" ++ artifact ++ "` failed: "

namespace Failure

/-- The text of a failure. -/
def message : Failure → String
  | badSyntax path _ => "failed to parse " ++ path
  | secondSend function channel _ =>
    "function `" ++ function ++ "` sends on channel `" ++ channel ++
      "` more than once on a single path"
  | channelMisuse function channel misuse _ =>
    "channel `" ++ channel ++ "` of function `" ++ function ++ "` cannot become a callback: " ++
      misuse.reason
  | packageVariable function name _ =>
    "function `" ++ function ++ "` refers to package-level variable `" ++ name ++ "`"
  | unprintable artifact _ => "could not print generated source for `" ++ artifact ++ "`"
  | step s artifact fault => s.failed artifact ++ fault.message
  | config path fault => "invalid configuration in " ++ path ++ ": " ++ fault.message
  | access path _ => "failed to access " ++ path

/-- The texts of what is behind a failure. -/
def causes : Failure → List String
  | unprintable _ error => [error.message]
  | access _ error => [error.message]
  | _ => []

/-- The place in the program that a failure is about. -/
def span? : Failure → Option Span
  | secondSend _ _ span | channelMisuse _ _ _ span | packageVariable _ _ span => some span
  | _ => none

/-- The text at the marked place. -/
def label : Failure → String
  | secondSend .. => "second send on this path"
  | channelMisuse .. => "channel used here"
  | packageVariable .. => "package-level variable referenced here"
  | _ => "here"

/-- Advice on how to mend the program. -/
def help : Failure → Option String
  | secondSend .. =>
    some ("only one value can be delivered per dispatch; send once and carry the rest in that " ++
      "value")
  | channelMisuse .. =>
    some "callback channels may only be sent on or closed inside the launched function"
  | packageVariable _ name _ =>
    some ("pass `" ++ name ++ "` to the function as a parameter instead")
  | _ => none

end Failure

end ServiceSplit
