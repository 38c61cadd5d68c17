import PermitTypes.Emit.Declaration
import PermitTypes.Files.Trouble
import PermitTypes.Json.Fault
import PermitTypes.Path

namespace PermitTypes.Project

open Files

/-- Why a document cannot be had. -/
inductive LoadFailure where
  | unreadable (path : Path) (trouble : Trouble)
  | malformed (failure : Json.Failure)

def LoadFailure.message : LoadFailure → String
  | unreadable path trouble => "Failed to read " ++ path.text ++ ": " ++ trouble.message
  | malformed failure => "Invalid permit document: " ++ failure.message

/-- What lies behind the failure. -/
def LoadFailure.cause : LoadFailure → String
  | unreadable _ trouble => trouble.message
  | malformed failure => failure.message

/-- Why a command fails. -/
inductive Failure where
  | files (trouble : Trouble)
  | config (failure : Json.Failure)
  | load (failure : LoadFailure)
  | emit (failure : Emit.DocumentFailure)
  | noSourceDirectory (path : Path)
  | documents (failed total : Nat)

/-- A document that cannot be had is reported with its cause once more. -/
def Failure.message : Failure → String
  | files trouble => trouble.message
  | config failure => failure.message
  | load failure => failure.message ++ ": " ++ failure.cause
  | emit failure => failure.message
  | noSourceDirectory path => "Source directory does not exist: " ++ path.quoted
  | documents failed total =>
    toString failed ++ " of " ++ toString total ++ " files failed to compile"

end PermitTypes.Project
