namespace PermitTypes.Files

/-- Why something cannot be done with a file. -/
inductive Trouble where
  | missing
  | exists
  | notDirectory
  | isDirectory
  | nameTooLong
  | zeroInName
  | notText
  | noDevice
  | other (message : String)
  deriving DecidableEq

def Trouble.message : Trouble → String
  | missing => "No such file or directory (os error 2)"
  | .exists => "File exists (os error 17)"
  | notDirectory => "Not a directory (os error 20)"
  | isDirectory => "Is a directory (os error 21)"
  | nameTooLong => "File name too long (os error 36)"
  | zeroInName => "file name contained an unexpected NUL byte"
  | notText => "stream did not contain valid UTF-8"
  | noDevice => "No such device or address (os error 6)"
  | other message => message

end PermitTypes.Files
