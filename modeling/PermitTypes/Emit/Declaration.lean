import PermitTypes.Emit.Permit

namespace PermitTypes.Emit

open Schema

structure DocumentFailure where
  permit : String
  cause : Failure
  deriving DecidableEq

def DocumentFailure.message (f : DocumentFailure) : String :=
  "Failed to emit permit '" ++ f.permit ++ "': " ++ f.cause.message

def joinLines (lines : List String) : String := "\n".intercalate lines

def declarationLines (name : String) (lines : List String) : List String :=
  ("export type " ++ permitTypeName name ++ " = \x7b") :: indent lines ++ ["\x7d"]

def declaration (name : String) (lines : List String) : String :=
  joinLines (declarationLines name lines)

/-- Blocks with an empty line between two of them; nothing at all when there is none. -/
def joinBlocks : List String → String
  | [] => ""
  | blocks => "\n\n".intercalate blocks ++ "\n"

/-- Each permit's name with its lines, in the order of the document. -/
def permitBodies (options : Options) :
    List (String × Permit) → Except DocumentFailure (List (String × List String))
  | [] => .ok []
  | (name, permit) :: rest =>
    match permitLines options permit with
    | .error cause => .error ⟨name, cause⟩
    | .ok lines => do
      let others ← permitBodies options rest
      .ok ((name, lines) :: others)

def documentText (options : Options) (document : Document) : Except DocumentFailure String := do
  let bodies ← permitBodies options document.permits
  .ok (joinBlocks (bodies.map fun b => declaration b.1 b.2))

/-- Permits without lines leave no gap. -/
def linesText (options : Options) (document : Document) : Except DocumentFailure String := do
  let bodies ← permitBodies options document.permits
  .ok (joinBlocks ((bodies.filter (!·.2.isEmpty)).map fun b => joinLines b.2))

end PermitTypes.Emit
