namespace PermitTypes.Json

/-- A JSON value. Members keep their order and may share a name; a number is kept as written. -/
inductive Tree where
  | null
  | bool (value : Bool)
  | number (lexeme : String)
  | string (value : String)
  | array (elements : List Tree)
  | object (members : List (String × Tree))

end PermitTypes.Json
