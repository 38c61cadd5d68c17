import PermitTypes.Files.Disk
import PermitTypes.Project.Config
import PermitTypes.Project.Failure

namespace PermitTypes.Project

open Files Schema

variable {m : Type → Type} [Monad m] [Disk m]

def loadDocument (p : Path) : m (Except LoadFailure Document) := do
  match ← Disk.readText p with
  | .error t => pure (.error (.unreadable p t))
  | .ok source =>
    match Document.parse source with
    | .error f => pure (.error (.malformed f))
    | .ok d => pure (.ok d)

/-- The config of a directory; a directory without one has the default. -/
def loadConfig (root : Path) : m (Except Failure Config) := do
  let p := root.joinText Config.fileName
  if ← Disk.isThere p then
    match ← Disk.readText p with
    | .error t => pure (.error (.files t))
    | .ok source =>
      match Config.parse source with
      | .error f => pure (.error (.config f))
      | .ok c => pure (.ok c)
  else pure (.ok {})

def Config.sourcePath (c : Config) (root : Path) : Path := root.joinText c.sourceDir

end PermitTypes.Project
