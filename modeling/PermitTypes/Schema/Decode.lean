import PermitTypes.Json.Record
import PermitTypes.Schema.Permit

namespace PermitTypes.Schema.Decode

open Json

/-- The most brackets that may be open at once. -/
def depthLimit : Nat := 127

def string : Reader String := stringForm.reader

def flag : Reader Bool := boolForm.reader

def kind : Reader Kind := string.map Kind.ofTag

/-- What is known of a property while it is read. -/
structure PropertyDraft where
  kind : Option Kind := none
  optional : Bool := false
  list : Bool := false
  fields : Option Fields := none

def propertyRecord (fields : Reader Fields) : Record PropertyDraft Property where
  expected := "struct Property"
  draft := {}
  fields :=
    [⟨"type", kind.map fun k d => { d with kind := some k }⟩,
      ⟨"optional", flag.map fun b d => { d with optional := b }⟩,
      ⟨"list", flag.map fun b d => { d with list := b }⟩,
      ⟨"property", fields.nullable.map fun fs d => { d with fields := fs }⟩]
  finish d :=
    match d.kind with
    | none => .error "type"
    | some k => .ok ⟨k, d.optional, d.list, d.fields⟩

def mapForm {α : Type} (value : Reader α) : Form (List (String × α)) where
  expected := "a map"
  object := .inside (mapMembers value).reader

def closedMapForm {α : Type} : Form (List (String × α)) where
  expected := "a map"
  object := .tooDeep

mutual

/-- A property, when `room` more brackets may be opened. -/
def property (room : Nat) : Reader Property :=
  match room with
  | 0 => (Record.closedForm "struct Property").reader
  | room + 1 => (propertyRecord (fields room)).form.reader

def fields (room : Nat) : Reader Fields :=
  match room with
  | 0 => closedMapForm.reader
  | room + 1 => (mapForm (property room)).reader

end

def filterForm (room : Nat) : Form Filter where
  expected := "a filter shape object or a list of shapes"
  array :=
    match room with
    | 0 => .tooDeep
    | room + 1 => .inside ((listElements (fields room)).reader.map .union)
  object :=
    match room with
    | 0 => .tooDeep
    | room + 1 => .inside ((mapMembers (property room)).reader.map .shape)

def filter (room : Nat) : Reader Filter := (filterForm room).reader

def permitRecord (room : Nat) : Record Permit Permit where
  expected := "struct MutatePermit"
  draft := {}
  fields :=
    [⟨"filter", (filter room).nullable.map fun f p => { p with filter := f }⟩,
      ⟨"effect", (fields room).nullable.map fun e p => { p with effect := e }⟩,
      ⟨"extend", string.nullable.map fun s p => { p with extend := s }⟩]
  finish := .ok

def permit : Nat → Reader Permit
  | 0 => (Record.closedForm "struct MutatePermit").reader
  | room + 1 => (permitRecord room).form.reader

def permits : Nat → Reader (List (String × Permit))
  | 0 => closedMapForm.reader
  | room + 1 => (mapForm (permit room)).reader

def baseRecord : Record Base Base where
  expected := "struct Base"
  draft := {}
  fields := [⟨"name", string.map fun s b => { b with name := s }⟩]
  finish := .ok

def base : Nat → Reader Base
  | 0 => (Record.closedForm "struct Base").reader
  | _ + 1 => baseRecord.form.reader

def documentRecord (room : Nat) : Record Document Document where
  expected := "struct PermitDocument"
  draft := {}
  fields :=
    [⟨"base", (base room).map fun b d => { d with base := b }⟩,
      ⟨"permit", (permits room).map fun ps d => { d with permits := ps }⟩]
  finish := .ok

def document : Nat → Reader Document
  | 0 => (Record.closedForm "struct PermitDocument").reader
  | room + 1 => (documentRecord room).form.reader

end PermitTypes.Schema.Decode

namespace PermitTypes.Schema

open Json

/-- The document that a text holds. -/
def Document.parse (source : String) : Except Failure Document :=
  (Decode.document Decode.depthLimit).read source

end PermitTypes.Schema
