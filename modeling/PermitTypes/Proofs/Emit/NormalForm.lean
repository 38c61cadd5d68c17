import PermitTypes.Proofs.Emit.Success

namespace PermitTypes.Emit.NormalForm

open Schema

inductive Scalar where
  | date | string | number | boolean | object
  deriving DecidableEq

def Scalar.text : Scalar → String
  | date => "Date"
  | string => "string"
  | number => "number"
  | boolean => "boolean"
  | object => "object"

/-- What the lines of a field show. The label is the name with the mark of an optional field. -/
inductive Field where
  | scalar (label : String) (list : Bool) (type : Scalar)
  | nested (label : String) (list : Bool) (fields : List Field)

abbrev Container := List Field

inductive Selector where
  | shape (fields : Container)
  | union (shapes : List Container)

structure Form where
  filter : Option (Bool × Selector)
  effect : Option Container
  extend : Option String

def scalar? : Kind → Option Scalar
  | .timestamp => some .date
  | .text | .uuid => some .string
  | .integer | .decimal => some .number
  | .boolean => some .boolean
  | .json => some .object
  | .object | .unknown _ => none

def marked (name : String) (optional : Bool) : String := if optional then name ++ "?" else name

/-- A kind with a type of its own has no nested fields, whatever is given. -/
def Field.make (label : String) (list : Bool) (fields : Container) : Option Scalar → Field
  | some type => .scalar label list type
  | none => .nested label list fields

mutual

def ofProperty (name : String) : Property → Field
  | ⟨kind, optional, list, none⟩ => .make (marked name optional) list [] (scalar? kind)
  | ⟨kind, optional, list, some fields⟩ =>
    .make (marked name optional) list (ofFields fields) (scalar? kind)

def ofFields : List (String × Property) → Container
  | [] => []
  | (name, p) :: rest => ofProperty name p :: ofFields rest

end

theorem ofProperty_eq (name : String) (p : Property) :
    ofProperty name p =
      .make (marked name p.optional) p.list (ofFields (p.fields.getD [])) (scalar? p.kind) := by
  obtain ⟨kind, optional, list, fields⟩ := p
  cases fields <;> simp [ofProperty, ofFields]

def ofFilter : Filter → Selector
  | .shape fields => .shape (ofFields fields)
  | .union shapes => .union (shapes.map ofFields)

def normalForm (options : Options) (permit : Permit) : Form where
  filter := permit.filter.map fun f => (options.filterOptional, ofFilter f)
  effect := permit.effect.map ofFields
  extend := permit.extended.map pascalCase

/-- What stands behind the label; an opening brace for nested fields. -/
def valueText (list : Bool) : Option Scalar → String
  | some type => listOpen list ++ type.text ++ listClose list
  | none => listOpen list ++ "\x7b"

def firstLine (label : String) (list : Bool) (type : Option Scalar) : String :=
  label ++ ": " ++ valueText list type

mutual

def Field.lines : Field → List String
  | .scalar label list type => [firstLine label list (some type)]
  | .nested label list fields =>
    firstLine label list none :: indent (containerLines fields) ++ [closeLine list]

def containerLines : List Field → List String
  | [] => []
  | f :: rest => f.lines ++ containerLines rest

end

def blockLines (head : String) (fields : Container) : List String :=
  head :: indent (containerLines fields) ++ ["\x7d"]

def Selector.lines (optional : Bool) : Selector → List String
  | .shape fields => blockLines ("filter" ++ filterMark optional ++ ": \x7b") fields
  | .union shapes =>
    ("filter" ++ filterMark optional ++ ":") :: indent (shapes.flatMap (blockLines "| \x7b"))

def filterPart : Option (Bool × Selector) → List String
  | none => []
  | some (optional, selector) => selector.lines optional

def effectPart : Option Container → List String
  | none => []
  | some fields => blockLines "effect: \x7b" fields

def extendPart : Option String → List String
  | none => []
  | some type => ["extend: " ++ type ++ "ExtendType"]

def Form.lines (n : Form) : List String :=
  filterPart n.filter ++ effectPart n.effect ++ extendPart n.extend

theorem scalarType_eq (kind : Kind) : scalarType kind = (scalar? kind).map Scalar.text := by
  cases kind <;> rfl

theorem label_eq (name : String) (optional : Bool) :
    label name optional = marked name optional ++ ": " := by
  cases optional <;> simp [label, marked]

theorem scalarLine_eq (name : String) (optional list : Bool) (type : Scalar) :
    scalarLine name optional list type.text = firstLine (marked name optional) list (some type) := by
  simp only [scalarLine, firstLine, valueText, label_eq, String.append_assoc]

theorem openLine_eq (name : String) (optional list : Bool) :
    openLine name optional list = firstLine (marked name optional) list none := by
  simp only [openLine, firstLine, valueText, label_eq, String.append_assoc]

mutual

theorem lines_of_propertyLines {name : String} {lines : List String} : (p : Property) →
    propertyLines name p = .ok lines → lines = (ofProperty name p).lines
  | ⟨kind, optional, list, fields⟩, h => by
      rw [ofProperty_eq]
      rcases propertyLines_eq_ok h with ⟨type, ht, rfl⟩ | ⟨rfl, body, hb, rfl⟩
      · rw [scalarType_eq, Option.map_eq_some_iff] at ht
        obtain ⟨scalar, hs, rfl⟩ := ht
        rw [scalarLine_eq, hs, Field.make, Field.lines]
      · have hfields : body = containerLines (ofFields (fields.getD [])) := by
          cases fields with
          | none => exact (Except.ok.inj hb).symm
          | some fields => exact lines_of_fieldLines fields hb
        rw [hfields, openLine_eq, scalar?, Field.make, Field.lines]

theorem lines_of_fieldLines {lines : List String} : (fields : List (String × Property)) →
    fieldLines fields = .ok lines → lines = containerLines (ofFields fields)
  | [], h => by cases h; rfl
  | (name, p) :: rest, h => by
      obtain ⟨first, others, hf, ho, rfl⟩ := fieldLines_cons_eq_ok h
      rw [lines_of_propertyLines p hf, lines_of_fieldLines rest ho]
      rfl

end

theorem lines_of_block {head : String} {fields : Fields} {lines : List String}
    (h : block head fields = .ok lines) : lines = blockLines head (ofFields fields) := by
  obtain ⟨body, hb, rfl⟩ := block_eq_ok h
  rw [lines_of_fieldLines fields hb]
  rfl

theorem lines_of_branchLines {shapes : List Fields} {lines : List String}
    (h : branchLines shapes = .ok lines) :
    lines = indent ((shapes.map ofFields).flatMap (blockLines "| \x7b")) := by
  induction shapes generalizing lines with
  | nil => cases h; rfl
  | cons shape rest ih =>
      obtain ⟨first, others, hf, ho, rfl⟩ := branchLines_cons_eq_ok h
      rw [lines_of_block hf, ih ho]
      simp [indent]

theorem lines_of_filterLines {optional : Bool} {filter : Filter} {lines : List String}
    (h : filterLines optional filter = .ok lines) : lines = (ofFilter filter).lines optional := by
  cases filter with
  | shape fields => exact lines_of_block h
  | union shapes =>
      obtain ⟨-, branches, hb, rfl⟩ := filterLines_union_eq_ok h
      rw [lines_of_branchLines hb]
      rfl

/-- The lines of a permit can be written down from its normal form alone. -/
theorem lines_of_permitLines {options : Options} {permit : Permit} {lines : List String}
    (h : permitLines options permit = .ok lines) : lines = (normalForm options permit).lines := by
  obtain ⟨filter, effect, hf, he, rfl⟩ := permitLines_eq_ok h
  have hfilter : filter = filterPart (normalForm options permit).filter := by
    simp only [normalForm]
    cases hp : permit.filter with
    | none => rw [hp] at hf; cases hf; rfl
    | some f => rw [hp] at hf; exact lines_of_filterLines hf
  have heffect : effect = effectPart (normalForm options permit).effect := by
    simp only [normalForm]
    cases hp : permit.effect with
    | none => rw [hp] at he; cases he; rfl
    | some fields => rw [hp] at he; exact lines_of_block he
  have hextend : (permit.extended.map extendLine).toList =
      extendPart (normalForm options permit).extend := by
    simp only [normalForm]
    cases permit.extended with
    | none => rfl
    | some schema => simp [extendPart, extendLine, extendTypeName, String.append_assoc]
  rw [Form.lines, hfilter, heffect, hextend]

end PermitTypes.Emit.NormalForm
