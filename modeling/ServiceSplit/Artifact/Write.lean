import ServiceSplit.Artifact.Basic
import ServiceSplit.Host.Basic

/-!
# Writing artifacts

Each artifact has a directory of its own, which holds its files and nothing else.
-/

namespace ServiceSplit

/-- Where an artifact was written. -/
structure ArtifactDir where
  /-- The name of the artifact. -/
  name : String
  /-- The path of its directory. -/
  dir : String
deriving DecidableEq, Repr, Inhabited

namespace Host

variable {m : Type → Type} [Monad m]

/-- The result of an access to `path`. -/
def accessing {α : Type} (path : String) (result : m (Except OsError α)) : ExceptT Failure m α :=
  ExceptT.mk do
    return (← result).mapError (.access path)

/-- Makes an empty directory. -/
def freshDir (host : Host m) (dir : String) : ExceptT Failure m Unit := do
  if ← host.pathExists dir then
    accessing dir (host.removeTree dir)
  accessing dir (host.createDirs dir)

/-- Writes a file. -/
def put (host : Host m) (path text : String) : ExceptT Failure m Unit :=
  accessing path (host.writeFile path text)

/-- Writes an artifact to its directory under `out`. -/
def writeArtifact (host : Host m) (out : String) (a : Artifact) :
    ExceptT Failure m ArtifactDir := do
  let dir := joinPath out a.name
  host.freshDir dir
  a.files.forM fun (name, text) => host.put (joinPath dir name) text
  return ⟨a.name, dir⟩

/-- Writes artifacts one after the other. -/
def writeArtifacts (host : Host m) (out : String) (artifacts : List Artifact) :
    ExceptT Failure m (List ArtifactDir) :=
  artifacts.mapM (host.writeArtifact out)

end Host

end ServiceSplit
