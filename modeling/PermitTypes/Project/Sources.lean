import PermitTypes.Files.Disk

namespace PermitTypes.Project

open Files

/-- How the names of permit documents end. -/
def documentSuffix : String := ".permit.json"

def declarationSuffix : String := ".d.ts"

/-- The name without the suffix, if it has it. -/
def stem? (name : String) : Option String :=
  let cs := name.toList
  let suffix := documentSuffix.toList
  if suffix.isSuffixOf cs then some (String.ofList (cs.take (cs.length - suffix.length))) else none

/-- A suffix alone names no document. -/
def isDocumentName (name : String) : Bool :=
  match stem? name with
  | none => false
  | some stem => stem ≠ ""

/-- A name that is no text names no document either. -/
def isDocument (p : Path) : Bool := (p.fileName?.bind (·.text?)).any isDocumentName

/-- Every permit document at or below a path, in the order of their paths. -/
def findDocuments {m : Type → Type} [Monad m] [Disk m] (dir : Path) : m (List Path) := do
  let files ← Disk.files dir
  pure ((files.filter isDocument).mergeSort Path.le)

def declarationName (document : Path) : String :=
  let name := (document.fileName?.bind (·.text?)).getD ""
  (stem? name).getD name ++ declarationSuffix

def relativeTo (sourceDir document : Path) : Path := (document.stripBase sourceDir).getD document

/-- Next to the document, or at the same place below the output directory. -/
def outputPath (sourceDir : Path) (outputDir : Option Path) (document : Path) : Path :=
  match outputDir with
  | none => document.withFileName (declarationName document)
  | some out =>
    let below := (relativeTo sourceDir document).parent?.getD (Path.ofText "")
    (out.join below).joinText (declarationName document)

end PermitTypes.Project
