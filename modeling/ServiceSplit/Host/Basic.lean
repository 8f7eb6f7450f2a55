import ServiceSplit.Failure

/-!
# Hosts

What a run needs of the machine it runs on: files and other programs.
-/

namespace ServiceSplit

/-- A start of another program. -/
structure Invocation where
  /-- The program. -/
  program : String
  /-- Its arguments. -/
  args : List String
  /-- The directory to start it in, unless it is that of the run. -/
  directory : Option String := none
  /-- Additional environment variables. -/
  environment : List (String × String) := []
  /-- What it reads, if anything. -/
  input : Option String := none
deriving DecidableEq, Repr, Inhabited

/-- The texts that are handed over at a start. -/
def Invocation.texts (i : Invocation) : List String :=
  i.program :: i.args ++ i.directory.toList ++ i.environment.flatMap fun v => [v.1, v.2]

/-- What comes of a program. -/
structure Output where
  /-- The exit status. -/
  status : Nat := 0
  /-- What it writes. -/
  stdout : String := ""
  /-- What it writes as errors. -/
  stderr : String := ""
deriving DecidableEq, Repr, Inhabited

/-- Access to files and programs. -/
structure Host (m : Type → Type) where
  /-- The text of a file. -/
  readFile : String → m (Except OsError String)
  /-- Whether there is a file at a path. -/
  isFile : String → m Bool
  /-- Whether there is anything at a path. -/
  pathExists : String → m Bool
  /-- Removes a directory with all it contains. -/
  removeTree : String → m (Except OsError Unit)
  /-- Creates a directory, with the directories around it. -/
  createDirs : String → m (Except OsError Unit)
  /-- Writes a file. -/
  writeFile : String → String → m (Except OsError Unit)
  /-- Runs a program to its end. -/
  run : Invocation → m (Except OsError Output)
  /-- Waits for some milliseconds. -/
  pause : Nat → m Unit

/-- The path of `name` in a directory. -/
def joinPath (dir name : String) : String :=
  if dir.toList.getLast? = some '/' then dir ++ name else dir ++ "/" ++ name

/-- The path of the directory that a file is in. -/
def parentPath (path : String) : String :=
  String.ofList ((path.toList.reverse.dropWhile (· != '/')).drop 1).reverse

/-- Whether a path starts from the root. -/
def isAbsolute (path : String) : Bool :=
  path.toList.head? = some '/'

/-- The names on a path. -/
def pathNames (path : String) : List String :=
  (Text.splitOn '/' path.toList).map String.ofList

/-- The place that a path leads to from another place, names of places being given from outside
in. -/
def follow (place : List String) : List String → List String
  | [] => place
  | name :: names =>
    if name = "" ∨ name = "." then follow place names
    else if name = ".." then follow place.dropLast names
    else follow (place ++ [name]) names

end ServiceSplit
