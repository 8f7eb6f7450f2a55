import ServiceSplit.Command.Run

/-!
# The command line

The run of the command line on the machine's own files. Other programs are not started: a run that
is to bring up artifacts ends when it needs the first of them.
-/

namespace ServiceSplit

/-- The refusal that an error of the machine is. -/
def OsError.ofError : IO.Error → OsError
  | .noFileOrDirectory .. => .noEntry
  | .inappropriateType _ code _ => if code = 21 ∨ code = -21 then .isDirectory else .notDirectory
  | e => .other (toString e)

/-- The result of an action, with errors as refusals. -/
def attempt {α : Type} (action : IO α) : BaseIO (Except OsError α) := do
  return (← action.toBaseIO).mapError OsError.ofError

/-- Whether an action succeeds. -/
def succeeds {α : Type} (action : IO α) : BaseIO Bool := do
  return (← action.toBaseIO).isOk

/-- The machine's own files, without other programs. -/
def machine : Host BaseIO where
  readFile path := attempt (IO.FS.readFile path)
  isFile path := succeeds (IO.FS.readFile path)
  pathExists path := succeeds (IO.FS.realPath path)
  removeTree path := attempt (IO.FS.removeDirAll path)
  createDirs path := attempt (IO.FS.createDirAll path)
  writeFile path text := attempt (IO.FS.writeFile path text)
  run _ := return .error .noEntry
  pause ms := IO.sleep ms.toUInt32

/-- The lines that tell what went wrong. -/
def Report.text : Report → String
  | .plain message causes => Report.plainText message causes
  | .marked diagnostics =>
    Text.lines <| diagnostics.map fun d =>
      "error: " ++ d.message ++ " (" ++ d.label ++ " at byte " ++ Text.decimal d.offset ++ ")" ++
        (d.help.map ("\n  help: " ++ ·)).getD ""

end ServiceSplit

open ServiceSplit in
/-- The command line. -/
def main (args : List String) : IO UInt32 := do
  let outcome ← machine.command args
  IO.print outcome.stdout
  match outcome with
  | .misused e => IO.eprint (Text.lines ["error: " ++ e.message])
  | _ => IO.eprint ((outcome.report?.map Report.text).getD "")
  return outcome.exitCode.toUInt32
