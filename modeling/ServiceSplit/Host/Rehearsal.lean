import ServiceSplit.Host.FileTree

/-!
# Rehearsals

A host whose files are a value and whose programs give answers that were written beforehand.
-/

namespace ServiceSplit

/-- Files, prepared answers, and the programs run so far. -/
structure Rehearsal where
  /-- The files. -/
  tree : FileTree := {}
  /-- The answers of each program that exists. -/
  answers : List (String × List Output) := []
  /-- The programs run so far. -/
  runs : List Invocation := []
deriving Inhabited

namespace Rehearsal

/-- Changes the files. -/
def onTree (f : FileTree → Except OsError FileTree) : StateM Rehearsal (Except OsError Unit) :=
  modifyGet fun r =>
    match f r.tree with
    | .ok tree => (.ok (), { r with tree })
    | .error e => (.error e, r)

/-- The answer number `n`, or the last one if there are not so many. A program tells the last byte
of its status only. -/
def answerAt (answers : List Output) (n : Nat) : Output :=
  let answer := (answers[n]?.or answers.getLast?).getD {}
  { answer with status := answer.status % UInt8.size }

/-- The most bytes that an argument may have. -/
def maxArgumentSize : Nat :=
  131071

/-- The answers of a program, if it can be started. -/
def start (r : Rehearsal) (call : Invocation) : Except OsError (List Output) :=
  if call.texts.any (·.toList.contains '\x00') then .error .zeroByte
  else
    match r.answers.lookup call.program with
    | none => .error .noEntry
    | some answers =>
      if call.args.any (maxArgumentSize < ·.utf8ByteSize) then .error .argumentTooLong
      else .ok answers

/-- Runs a program: it gives the answers that are written for it one after the other. -/
def run (call : Invocation) : StateM Rehearsal (Except OsError Output) :=
  modifyGet fun r =>
    match r.start call with
    | .error e => (.error e, r)
    | .ok answers =>
      let before := r.runs.countP (·.program == call.program)
      (.ok (answerAt answers before), { r with runs := r.runs ++ [call] })

/-- The host of a rehearsal. -/
def host : Host (StateM Rehearsal) where
  readFile path := do return (← get).tree.read path
  isFile path := do
    match (← get).tree.at? path with
    | some (.file _) => return true
    | _ => return false
  pathExists path := do return ((← get).tree.at? path).isSome
  removeTree path := onTree (·.removeTree path)
  createDirs path := onTree (·.createDirs path)
  writeFile path text := onTree (·.write path text)
  run := run
  pause _ := return

end Rehearsal

end ServiceSplit
