import PermitTypes.Project.Emission
import PermitTypes.Project.Sources

namespace PermitTypes.Project

open Files

namespace Compilation

structure Arguments where
  path : String := "."
  outputDir : Option String := none
  toStdout : Bool := false
  flags : FilterFlags := {}

/-- Where the declarations of a document went. -/
inductive Delivery where
  | printed (text : String)
  | written (path : Path)

/-- What became of one document, whose path is relative to the source directory. -/
structure Result where
  document : Path
  outcome : Except Failure Delivery

def Result.succeeded (r : Result) : Bool :=
  match r.outcome with
  | .ok _ => true
  | .error _ => false

inductive Outcome where
  | refused (failure : Failure)
  | compiled (results : List Result)

def failures (results : List Result) : Nat := (results.filter (!·.succeeded)).length

/-- The command fails when it cannot begin, or when a document failed. -/
def Outcome.failure? : Outcome → Option Failure
  | refused failure => some failure
  | compiled results =>
    if failures results = 0 then none
    else some (.documents (failures results) results.length)

variable {m : Type → Type} [Monad m] [Disk m]

def writeOutput (p : Path) (text : String) : m (Except Failure Unit) := do
  let made ← match p.parent? with
    | none => pure (.ok ())
    | some parent => Disk.makeDirectories parent
  match made with
  | .error t => pure (.error (.files t))
  | .ok () =>
    match ← Disk.write p text with
    | .error t => pure (.error (.files t))
    | .ok () => pure (.ok ())

/-- Renders a document and delivers it: to a file, or to whoever prints it. -/
def deliver (options : Emit.Options) (target : Option Path) (document : Path) :
    m (Except Failure Delivery) := do
  match ← renderFile (Emit.documentText options) document with
  | .error f => pure (.error f)
  | .ok text =>
    match target with
    | none => pure (.ok (.printed text))
    | some p =>
      match ← writeOutput p text with
      | .error f => pure (.error f)
      | .ok () => pure (.ok (.written p))

/-- What a run works with. -/
structure Plan where
  sourceDir : Path
  outputDir : Option Path
  options : Emit.Options
  toStdout : Bool

def Plan.target (plan : Plan) (document : Path) : Option Path :=
  if plan.toStdout then none else some (outputPath plan.sourceDir plan.outputDir document)

/-- A document that fails does not stop the others. -/
def compileAll (plan : Plan) : List Path → m (List Result)
  | [] => pure []
  | document :: rest => do
    let outcome ← deliver plan.options (plan.target document) document
    let others ← compileAll plan rest
    pure (⟨relativeTo plan.sourceDir document, outcome⟩ :: others)

def plan (args : Arguments) (root : Path) (config : Config) : Plan where
  sourceDir := config.sourcePath root
  outputDir := (args.outputDir <|> config.outputDir).map root.joinText
  options := config.emitOptions args.flags
  toStdout := args.toStdout

end Compilation

open Compilation in
/-- Compiles every permit document of a project. -/
def compile {m : Type → Type} [Monad m] [Disk m] (args : Arguments) (cwd : Path) : m Outcome := do
  let root := cwd.joinText args.path
  match ← loadConfig root with
  | .error f => pure (.refused f)
  | .ok config =>
    let plan := plan args root config
    if ← Disk.isThere plan.sourceDir then
      let documents ← findDocuments plan.sourceDir
      let results ← compileAll plan documents
      pure (.compiled results)
    else pure (.refused (.noSourceDirectory plan.sourceDir))

end PermitTypes.Project
