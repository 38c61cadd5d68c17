import PermitTypes.Emit.Permit
import PermitTypes.Json.Record
import PermitTypes.Json.Writer
import PermitTypes.Schema.Decode
import PermitTypes.Schema.Encode

namespace PermitTypes.Project

open Json Schema

/-- How a project is compiled. -/
structure Config where
  sourceDir : String := "src"
  outputDir : Option String := none
  filterOptional : Bool := false
  deriving DecidableEq

namespace Config

def fileName : String := "permit.config.json"

def record : Record Config Config where
  expected := "struct Config"
  draft := {}
  fields :=
    [⟨"srcDir", Decode.string.map fun s c => { c with sourceDir := s }⟩,
      ⟨"outDir", Decode.string.nullable.map fun s c => { c with outputDir := s }⟩,
      ⟨"filterOptional", Decode.flag.map fun b c => { c with filterOptional := b }⟩]
  finish := .ok

def reader : Reader Config := record.form.reader

def parse (source : String) : Except Json.Failure Config := reader.read source

def encode (c : Config) : Tree :=
  .object ([("srcDir", .string c.sourceDir)] ++ optionMember "outDir" Tree.string c.outputDir ++
    [("filterOptional", .bool c.filterOptional)])

end Config

/-- What the command line says about filters; `required` wins. -/
structure FilterFlags where
  optional : Bool := false
  required : Bool := false

def Config.emitOptions (c : Config) (flags : FilterFlags) : Emit.Options :=
  ⟨!flags.required && (flags.optional || c.filterOptional)⟩

end PermitTypes.Project
