import PermitTypes.CommandLine.Request

namespace PermitTypes.CommandLine

open Files Project Text

/-- What a run of the program leaves: its output and its exit code. -/
structure Run where
  console : Console
  exit : Nat
  deriving DecidableEq

def versionText : String := "permit 0.1.0\n"

def usageText : String :=
  Emit.joinLines
    ["Usage: permit <COMMAND>",
      "",
      "Commands:",
      "  init     Initialize a new permit project",
      "  emit     Emit declarations for one permit document to stdout",
      "  compile  Compile every .permit.json file in the project",
      ""]

def failureText (palette : Palette) (f : Failure) : String :=
  "\n" ++ palette.paint .alarm "Error:" ++ " " ++ f.message ++ "\n\n"

/-- A failure is reported last, and makes the exit code one. -/
def conclude (palette : Palette) (answer : Answer) : Run :=
  match answer.failure with
  | none => ⟨answer.console, 0⟩
  | some f => ⟨answer.console ++ { err := failureText palette f }, 1⟩

def perform {m : Type → Type} [Monad m] [Disk m] (palette : Palette) (cwd : Path) :
    Request → m Run
  | .init args => do
    pure (conclude palette ((← init args cwd).answer palette args))
  | .emit args => do
    pure (conclude palette (emitAnswer (← emit args cwd)))
  | .compile args => do
    pure (conclude palette ((← compile args cwd).answer palette args))
  | .version => pure ⟨.printed versionText, 0⟩
  | .help => pure ⟨.printed usageText, 0⟩

/-- The whole program. -/
def run {m : Type → Type} [Monad m] [Disk m] (palette : Palette) (cwd : Path)
    (args : List String) : m Run :=
  match read args with
  | .ok request => perform palette cwd request
  | .error .help => pure ⟨.printed usageText, 0⟩
  | .error .misuse => pure ⟨{ err := usageText }, 2⟩

end PermitTypes.CommandLine
