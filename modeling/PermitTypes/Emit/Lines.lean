namespace PermitTypes.Emit

/-- Why a permit has no lines. -/
inductive Failure where
  | unknownKind (tag : String)
  | emptyUnion
  deriving DecidableEq

def Failure.message : Failure → String
  | unknownKind tag => "Invalid permit type property '" ++ tag ++ "'"
  | emptyUnion => "Filter union must contain at least one shape"

abbrev Lines := Except Failure (List String)

/-- One level deeper. -/
def indent (lines : List String) : List String := lines.map ("  " ++ ·)

theorem length_indent (lines : List String) : (indent lines).length = lines.length :=
  List.length_map ..

end PermitTypes.Emit
