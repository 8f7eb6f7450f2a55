import ServiceSplit.Host.Basic

/-!
# File trees

Files and directories as a value, with the operations of an operating system on them and its
refusals. Paths lead from the root or from the directory that one works in, name by name. There has
to be a directory before each name, and names and paths have limited sizes.
-/

namespace ServiceSplit

/-- The names from the root of a tree to a place in it. -/
abbrev Location := List String

/-- A file, or a directory with what is in it. -/
inductive Node where
  | file (text : String)
  | directory (entries : List (String × Node))
deriving Inhabited

namespace Node

/-- What is at a place inside. -/
def get? : Location → Node → Option Node
  | [], n => some n
  | _ :: _, file _ => none
  | name :: names, directory entries =>
    match entries.lookup name with
    | some n => n.get? names
    | none => none

/-- Exchanges or removes what has a name in a directory. -/
def setEntry (name : String) (new : Option Node) (entries : List (String × Node)) :
    List (String × Node) :=
  new.toList.map (name, ·) ++ entries.filter (·.1 != name)

/-- Exchanges or removes what is at a place inside. A place whose directory is missing stays
empty. -/
def set (new : Option Node) : Location → Node → Node
  | [], n => new.getD n
  | _ :: _, file text => file text
  | [name], directory entries => directory (setEntry name new entries)
  | name :: names, directory entries =>
    match entries.lookup name with
    | some n => directory (setEntry name (some (n.set new names)) entries)
    | none => directory entries

mutual

/-- The places and texts of the files inside, `place` being where the node is. -/
def filesFrom (place : Location) : Node → List (Location × String)
  | file text => [(place, text)]
  | directory entries => entriesFrom place entries

/-- The places and texts of the files in the entries of a directory. -/
def entriesFrom (place : Location) : List (String × Node) → List (Location × String)
  | [] => []
  | (name, n) :: rest => n.filesFrom (place ++ [name]) ++ entriesFrom place rest

end

end Node

/-- Files and directories, and the directory that one works in. -/
structure FileTree where
  /-- The root. -/
  root : Node := .directory []
  /-- The directory that paths start from unless they start from the root. -/
  home : Location := []
deriving Inhabited

namespace FileTree

/-- What is at a place. -/
def node? (t : FileTree) (place : Location) : Option Node :=
  t.root.get? place

/-- Puts something at a place. -/
def put (t : FileTree) (place : Location) (n : Node) : FileTree :=
  { t with root := t.root.set (some n) place }

/-- Empties a place. -/
def erase (t : FileTree) (place : Location) : FileTree :=
  { t with root := t.root.set none place }

/-- The most bytes that a name may have. -/
def maxNameSize : Nat :=
  255

/-- The most bytes that a path may have. -/
def maxPathSize : Nat :=
  4095

/-- The place that a path starts from. -/
def origin (t : FileTree) (path : String) : Location :=
  if isAbsolute path then [] else t.home

/-- The place that names lead to from another place. There has to be a directory before each name,
but there need not be anything at the end. -/
def walk (t : FileTree) (place : Location) : List String → Except OsError Location
  | [] => .ok place
  | name :: names =>
    match t.node? place with
    | none => .error .noEntry
    | some (.file _) => .error .notDirectory
    | some (.directory _) =>
      if maxNameSize < name.utf8ByteSize then .error .nameTooLong
      else t.walk (follow place [name]) names

/-- The place of a path. -/
def locate (t : FileTree) (path : String) : Except OsError Location :=
  if maxPathSize < path.utf8ByteSize then .error .nameTooLong
  else t.walk (t.origin path) (pathNames path)

/-- What is at a path. -/
def at? (t : FileTree) (path : String) : Option Node :=
  match t.locate path with
  | .ok place => t.node? place
  | .error _ => none

/-- The text of a file. -/
def read (t : FileTree) (path : String) : Except OsError String := do
  match t.node? (← t.locate path) with
  | some (.file text) => .ok text
  | some (.directory _) => .error .isDirectory
  | none => .error .noEntry

/-- Removes a directory with all it contains. -/
def removeTree (t : FileTree) (path : String) : Except OsError FileTree := do
  let place ← t.locate path
  match t.node? place with
  | some (.directory _) => .ok (t.erase place)
  | some (.file _) => .error .notDirectory
  | none => .error .noEntry

/-- Creates the directories that are missing on the way along some names; `made` tells whether one
was missing before. The innermost directory is asked for first, and a file on the way to it is not a
directory. If one on the way is missing, each directory from there on is asked for, and a file in
its place exists already. -/
def createAlong (t : FileTree) (made : Bool) (place : Location) :
    List String → Except OsError FileTree
  | [] => .ok t
  | name :: names =>
    if maxNameSize < name.utf8ByteSize then .error .nameTooLong
    else
      let next := follow place [name]
      match t.node? next with
      | some (.directory _) => t.createAlong made next names
      | some (.file _) => .error (if made || names.isEmpty then .entryExists else .notDirectory)
      | none => (t.put next (.directory [])).createAlong true next names

/-- Creates a directory, with the directories around it. -/
def createDirs (t : FileTree) (path : String) : Except OsError FileTree :=
  if maxPathSize < path.utf8ByteSize then .error .nameTooLong
  else t.createAlong false (t.origin path) (pathNames path)

/-- Writes a file. -/
def write (t : FileTree) (path text : String) : Except OsError FileTree := do
  let place ← t.locate path
  match t.node? place with
  | some (.directory _) => .error .isDirectory
  | _ => .ok (t.put place (.file text))

/-- A machine with an empty directory to work in. Outside of it there is only the device that is
always empty. -/
def blank : FileTree where
  root := .directory
    [("dev", .directory [("null", .file "")]), ("tmp", .directory [("work-dir", .directory [])])]
  home := ["tmp", "work-dir"]

/-- A machine with some files in the directory to work in. -/
def ofFiles (files : List (String × String)) : Except OsError FileTree :=
  files.foldlM (fun t (path, text) => do
    let t ← t.createAlong false t.home (pathNames path).dropLast
    t.write path text) blank

/-- The path of a place. -/
def pathOf (place : Location) : String :=
  Text.joined "/" place

/-- The files in the directory to work in, with their paths. -/
def files (t : FileTree) : List (String × String) :=
  match t.node? t.home with
  | some n => (n.filesFrom []).map fun (place, text) => (pathOf place, text)
  | none => []

/-- The files that are not in `before` or have another text there. -/
def written (before after : FileTree) : List (String × String) :=
  after.files.filter fun file => !before.files.contains file

/-- The paths of the files of `before` that are gone, in order. -/
def lost (before after : FileTree) : List String :=
  let paths := after.files.map Prod.fst
  ((before.files.map Prod.fst).filter fun path => !paths.contains path).mergeSort (· ≤ ·)

end FileTree

end ServiceSplit
