import PermitTypes.Project.Compilation
import PermitTypes.Project.Init
import PermitTypes.Text.Styled

namespace PermitTypes.Project

open Text

/-- What a command prints, on either stream. -/
structure Console where
  out : String := ""
  err : String := ""
  deriving DecidableEq

namespace Console

def append (a b : Console) : Console := ⟨a.out ++ b.out, a.err ++ b.err⟩

instance : Append Console := ⟨append⟩

def concat : List Console → Console
  | [] => {}
  | c :: rest => c ++ concat rest

def printed (text : String) : Console := { out := text }

def outLine (line : String) : Console := { out := line ++ "\n" }

def errLine (line : String) : Console := { err := line ++ "\n" }

end Console

open Console

/-- What a command prints, and why it fails if it does. -/
structure Answer where
  console : Console
  failure : Option Failure

namespace Init

def Created.line (palette : Palette) (args : Arguments) (created : Created) : String :=
  "  " ++ palette.paint .good "✓" ++ " Created " ++
    match created with
    | .sourceDirectory => args.sourceDir ++ "/"
    | .example => exampleName
    | .config => Config.fileName

def startLines (palette : Palette) (args : Arguments) (created : List Created) : List String :=
  palette.paint .heading "📝 Initializing permit project..." ::
    created.map (·.line palette args)

def keptLines (palette : Palette) : List String :=
  [palette.paint .warning "⚠️" ++ " " ++ palette.paint .bright Config.fileName ++ " already exists",
    "Use --force to overwrite"]

def endLines (palette : Palette) (args : Arguments) : List String :=
  ["", palette.paint .triumph "✅ Project initialized!", "", "Next steps:",
    "  1. Edit " ++ args.sourceDir ++ "/" ++ exampleName, "  2. Run: permit compile"]

def Outcome.answer (palette : Palette) (args : Arguments) : Outcome → Answer
  | kept => ⟨concat ((keptLines palette).map outLine), none⟩
  | stopped created trouble =>
    ⟨concat ((startLines palette args created).map outLine), some (.files trouble)⟩
  | finished created =>
    ⟨concat ((startLines palette args created ++ endLines palette args).map outLine), none⟩

end Init

def emitAnswer (result : Except Failure String) : Answer :=
  match result with
  | .ok text => ⟨printed text, none⟩
  | .error f => ⟨{}, some f⟩

namespace Compilation

/-- A line of the report; it makes way for declarations on the standard output. -/
def reportLine (toStdout : Bool) (line : String) : Console :=
  if toStdout then errLine line else outLine line

/-- The declarations of one document, headed by its path. -/
def block (first : Bool) (document : Path) (text : String) : String :=
  (if first then "" else "\n") ++ "// " ++ document.text ++ "\n" ++ text

def successLine (palette : Palette) (document : Path) (target : String) : String :=
  "  " ++ palette.paint .good "✓" ++ " " ++ document.text ++ " → " ++ target

def failureLine (palette : Palette) (document : Path) (f : Failure) : String :=
  "  " ++ palette.paint .bad "✗" ++ " " ++ document.text ++ " - " ++ palette.paint .bad f.message

def Result.console (palette : Palette) (toStdout first : Bool) (r : Result) : Console :=
  match r.outcome with
  | .error f => errLine (failureLine palette r.document f)
  | .ok (.printed text) =>
    printed (block first r.document text) ++
      reportLine toStdout (successLine palette r.document "stdout")
  | .ok (.written path) => reportLine toStdout (successLine palette r.document path.text)

/-- `first` holds until a document has succeeded. -/
def resultsConsole (palette : Palette) (toStdout first : Bool) : List Result → Console
  | [] => {}
  | r :: rest =>
    r.console palette toStdout first ++ resultsConsole palette toStdout (first && !r.succeeded) rest

def summaryLine (palette : Palette) (results : List Result) : String :=
  let failed := failures results
  let succeeded := toString (results.length - failed)
  if failed = 0 then
    palette.paint .good "✅" ++ " Compiled " ++ succeeded ++ " files successfully"
  else
    palette.paint .warning "⚠️" ++ " Compiled " ++ succeeded ++ " files, " ++ toString failed ++
      " errors"

def headingLine (palette : Palette) : String :=
  palette.paint .heading "🔨 Compiling permit schemas..."

def nothingLine (palette : Palette) : String :=
  palette.paint .warning "⚠️  No .permit.json files found"

def Outcome.console (palette : Palette) (toStdout : Bool) : Outcome → Console
  | refused _ => {}
  | compiled [] => concat ([headingLine palette, nothingLine palette].map (reportLine toStdout))
  | compiled results =>
    let found := "Found " ++ toString results.length ++ " files"
    concat ([headingLine palette, found].map (reportLine toStdout)) ++
      resultsConsole palette toStdout true results ++
      concat (["", summaryLine palette results].map (reportLine toStdout))

def Outcome.answer (palette : Palette) (args : Arguments) (outcome : Outcome) : Answer :=
  ⟨outcome.console palette args.toStdout, outcome.failure?⟩

end Compilation

end PermitTypes.Project
