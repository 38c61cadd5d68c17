import PermitTypes.Project.Load

namespace PermitTypes.Project

open Files

namespace Init

structure Arguments where
  sourceDir : String := "src"
  outputDir : Option String := none
  force : Bool := false

def exampleName : String := "example.permit.json"

def exampleLines : List String :=
  ["\x7b",
    "  \"base\": \x7b \"name\": \"example\" \x7d,",
    "  \"permit\": \x7b",
    "    \"update-user\": \x7b",
    "      \"filter\": [",
    "        \x7b \"id\": \x7b \"type\": \"uuid\" \x7d \x7d,",
    "        \x7b \"email\": \x7b \"type\": \"text\" \x7d \x7d",
    "      ],",
    "      \"effect\": \x7b",
    "        \"name\": \x7b \"type\": \"text\", \"optional\": true \x7d,",
    "        \"tags\": \x7b \"type\": \"text\", \"list\": true, \"optional\": true \x7d,",
    "        \"address\": \x7b",
    "          \"type\": \"object\",",
    "          \"optional\": true,",
    "          \"property\": \x7b",
    "            \"city\": \x7b \"type\": \"text\" \x7d,",
    "            \"zip\": \x7b \"type\": \"text\" \x7d",
    "          \x7d",
    "        \x7d",
    "      \x7d,",
    "      \"extend\": \"user-profile\"",
    "    \x7d",
    "  \x7d",
    "\x7d"]

/-- The document that a new project starts with. -/
def exampleText : String := Emit.joinLines exampleLines ++ "\n"

/-- What a new project has been given. -/
inductive Created where
  | sourceDirectory
  | example
  | config
  deriving DecidableEq

inductive Outcome where
  /-- A config was there already, and stays. -/
  | kept
  | stopped (created : List Created) (trouble : Trouble)
  | finished (created : List Created)

def Arguments.config (args : Arguments) : Config :=
  { sourceDir := args.sourceDir, outputDir := args.outputDir }

variable {m : Type → Type} [Monad m] [Disk m]

/-- Something is made unless it is there. -/
def unlessThere (p : Path) (what : Created) (make : m (Except Trouble Unit)) :
    m (Except Trouble (List Created)) := do
  if ← Disk.isThere p then pure (.ok [])
  else
    match ← make with
    | .error t => pure (.error t)
    | .ok () => pure (.ok [what])

end Init

open Init in
/-- The config is written after all else. -/
def init {m : Type → Type} [Monad m] [Disk m] (args : Arguments) (cwd : Path) : m Outcome := do
  let configPath := cwd.joinText Config.fileName
  if (← Disk.isThere configPath) && !args.force then pure .kept
  else
    let sourceDir := cwd.joinText args.sourceDir
    match ← unlessThere sourceDir .sourceDirectory (Disk.makeDirectories sourceDir) with
    | .error t => pure (.stopped [] t)
    | .ok directory =>
      let document := sourceDir.joinText exampleName
      match ← unlessThere document .example (Disk.write document exampleText) with
      | .error t => pure (.stopped directory t)
      | .ok document =>
        match ← Disk.write configPath args.config.encode.prettyText with
        | .error t => pure (.stopped (directory ++ document) t)
        | .ok () => pure (.finished (directory ++ document ++ [.config]))

end PermitTypes.Project
