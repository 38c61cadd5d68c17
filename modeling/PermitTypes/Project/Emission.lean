import PermitTypes.Project.Load

namespace PermitTypes.Project

open Files Schema

/-- The text of one document's declarations. -/
def renderFile {m : Type → Type} [Monad m] [Disk m]
    (render : Document → Except Emit.DocumentFailure String) (p : Path) :
    m (Except Failure String) := do
  match ← loadDocument p with
  | .error f => pure (.error (.load f))
  | .ok d =>
    match render d with
    | .error f => pure (.error (.emit f))
    | .ok text => pure (.ok text)

structure EmitArguments where
  file : Path
  flags : FilterFlags := {}
  lines : Bool := false

/-- The declarations of one document, or only the lines inside them. -/
def emit {m : Type → Type} [Monad m] [Disk m] (args : EmitArguments) (cwd : Path) :
    m (Except Failure String) := do
  match ← loadConfig cwd with
  | .error f => pure (.error f)
  | .ok config =>
    let options := config.emitOptions args.flags
    renderFile (if args.lines then Emit.linesText options else Emit.documentText options)
      (cwd.join args.file)

end PermitTypes.Project
