import PermitTypes.Files.Trouble
import PermitTypes.Path

namespace PermitTypes.Files

inductive EntryKind where
  | file | directory | special
  deriving DecidableEq

/-- What commands do with files. -/
class Disk (m : Type → Type) where
  kind : Path → m (Except Trouble EntryKind)
  read : Path → m (Except Trouble ByteArray)
  write : Path → String → m (Except Trouble Unit)
  makeDirectory : Path → m (Except Trouble Unit)
  /-- Every file at a path or below it, in any order. Special entries are no files. -/
  files : Path → m (List Path)

namespace Disk

variable {m : Type → Type} [Monad m] [Disk m]

def isThere (p : Path) : m Bool := do
  match ← kind p with
  | .ok _ => pure true
  | .error _ => pure false

def isDirectory (p : Path) : m Bool := do
  match ← kind p with
  | .ok .directory => pure true
  | _ => pure false

def readText (p : Path) : m (Except Trouble String) := do
  match ← read p with
  | .error t => pure (.error t)
  | .ok bytes =>
    match String.fromUTF8? bytes with
    | some text => pure (.ok text)
    | none => pure (.error .notText)

/-- A directory that is there already is as good as a new one. -/
def ensureDirectory (p : Path) : m (Except Trouble Unit) := do
  match ← makeDirectory p with
  | .error .exists => do
    if ← isDirectory p then pure (.ok ()) else pure (.error .exists)
  | made => pure made

/-- Makes a directory and, where they are missing, at most `depth` of those that lead to it. -/
def makeDirectoriesWithin : Nat → Path → m (Except Trouble Unit)
  | 0, p => ensureDirectory p
  | depth + 1, p => do
    match ← ensureDirectory p with
    | .error .missing =>
      match p.parent? with
      | none => pure (.error .missing)
      | some parent =>
        match ← makeDirectoriesWithin depth parent with
        | .error t => pure (.error t)
        | .ok () => ensureDirectory p
    | made => pure made

def makeDirectories (p : Path) : m (Except Trouble Unit) :=
  if p.components.isEmpty then pure (.ok ()) else makeDirectoriesWithin p.components.length p

end Disk

end PermitTypes.Files
