import PermitTypes.CommandLine.Run

namespace PermitTypes.Main

open Files

/-- Some operations report the negated number of an error. -/
def errorNumber (code : UInt32) : UInt32 := if code < 0x80000000 then code else 0 - code

def numbered (code : UInt32) (details : String) : Trouble :=
  match (errorNumber code).toNat with
  | 6 => .noDevice
  | 20 => .notDirectory
  | 21 => .isDirectory
  | 36 => .nameTooLong
  | number => .other (details ++ " (os error " ++ toString number ++ ")")

/-- What went wrong, as far as commands tell it apart. -/
def troubleOf (error : IO.Error) : Trouble :=
  match error with
  | .noFileOrDirectory .. => .missing
  | .alreadyExists .. => .exists
  | .inappropriateType _ code details | .invalidArgument _ code details
  | .permissionDenied _ code details | .noSuchThing _ code details => numbered code details
  | other => .other (toString other)

def attempt {α : Type} (action : IO α) : IO (Except Trouble α) := do
  try return .ok (← action)
  catch error => return .error (troubleOf error)

def kindOf (type : IO.FS.FileType) : EntryKind :=
  match type with
  | .dir => .directory
  | .file => .file
  | _ => .special

/-- An entry whose path is too long to ask for its kind counts as a file. -/
partial def filesBelow (p : Path) : IO (List Path) := do
  let location := (← IO.currentDir) / p.text
  match ← attempt location.metadata with
  | .error .nameTooLong => return [p]
  | .error _ => return []
  | .ok data =>
    match data.type with
    | .file => return [p]
    | .dir =>
      match ← attempt location.readDir with
      | .error _ => return []
      | .ok entries =>
        let below ← entries.toList.mapM fun entry => filesBelow (p.joinName entry.fileName)
        return below.flatten
    | _ => return []

instance : Disk IO where
  kind p := attempt do
    let data ← ((← IO.currentDir) / p.text).metadata
    return kindOf data.type
  read p := attempt (IO.FS.readBinFile p.text)
  write p text := attempt (IO.FS.writeFile p.text text)
  makeDirectory p := attempt (IO.FS.createDir p.text)
  files := filesBelow

def surroundings : IO Text.Surroundings := do
  return {
    terminal := ← (← IO.getStdout).isTty
    wantsColor := ← IO.getEnv "CLICOLOR"
    forcesColor := ← IO.getEnv "CLICOLOR_FORCE"
    refusesColor := ← IO.getEnv "NO_COLOR" }

end PermitTypes.Main

open PermitTypes in
def main (args : List String) : IO UInt32 := do
  let palette := Text.Palette.choose (← Main.surroundings)
  let cwd := Path.ofText (← IO.currentDir).toString
  let run ← CommandLine.run (m := IO) palette cwd args
  (← IO.getStdout).putStr run.console.out
  (← IO.getStderr).putStr run.console.err
  return run.exit.toUInt32
