namespace PermitTypes.CommandLine

/-- An option: a flag, or one that takes a value. -/
structure Switch where
  long : String
  short : Option Char := none
  takesValue : Bool := false

/-- What the arguments of a command may be. -/
structure Grammar where
  switches : List Switch
  positionals : Nat
  emptyPositional : Bool := true

/-- What the arguments say. An option is given by its long name. -/
structure Given where
  flags : List String := []
  values : List (String × String) := []
  positionals : List String := []

/-- Why reading stops early. -/
inductive Stop where
  | help
  | misuse
  deriving DecidableEq

namespace Given

def names (g : Given) : List String := g.flags ++ g.values.map (·.1)

def hasFlag (g : Given) (name : String) : Bool := g.flags.contains name

def value? (g : Given) (name : String) : Option String := g.values.lookup name

/-- An option may be given once. -/
def addFlag (g : Given) (s : Switch) : Except Stop Given :=
  if s.long ∈ g.names then .error .misuse else .ok { g with flags := g.flags ++ [s.long] }

def addValue (g : Given) (s : Switch) (value : String) : Except Stop Given :=
  if s.long ∈ g.names then .error .misuse
  else .ok { g with values := g.values ++ [(s.long, value)] }

def addPositional (grammar : Grammar) (g : Given) (value : String) : Except Stop Given :=
  if g.positionals.length < grammar.positionals && (grammar.emptyPositional || value ≠ "") then
    .ok { g with positionals := g.positionals ++ [value] }
  else .error .misuse

def addPositionals (grammar : Grammar) (g : Given) : List String → Except Stop Given
  | [] => .ok g
  | value :: rest => do (← g.addPositional grammar value).addPositionals grammar rest

end Given

/-- What an argument adds; an option at its end may still lack its value. -/
inductive Read where
  | done (given : Given)
  | lacks (given : Given) (option : Switch)

/-- `--name` or `--name=value`. -/
def readLong (grammar : Grammar) (g : Given) (cs : List Char) : Except Stop Read := do
  let name := String.ofList (cs.takeWhile (· ≠ '='))
  let attached := cs.dropWhile (· ≠ '=')
  match grammar.switches.find? (·.long = name), attached with
  | none, [] => if name = "help" then .error .help else .error .misuse
  | none, _ => .error .misuse
  | some s, [] => if s.takesValue then .ok (.lacks g s) else .ok (.done (← g.addFlag s))
  | some s, _ :: value =>
    if s.takesValue then .ok (.done (← g.addValue s (String.ofList value))) else .error .misuse

/-- `-abc`: flags, of which the last may be an option with the value behind it, with or without an
equals sign between. -/
def readShort (grammar : Grammar) (g : Given) : List Char → Except Stop Read
  | [] => .ok (.done g)
  | c :: cs =>
    match grammar.switches.find? (·.short = some c) with
    | none => if c = 'h' then .error .help else .error .misuse
    | some s =>
      if s.takesValue then
        match cs with
        | [] => .ok (.lacks g s)
        | '=' :: value => do .ok (.done (← g.addValue s (String.ofList value)))
        | value => do .ok (.done (← g.addValue s (String.ofList value)))
      else do readShort grammar (← g.addFlag s) cs

/-- A lone dash is no option. -/
def looksLikeOption (arg : String) : Bool :=
  match arg.toList with
  | '-' :: _ :: _ => true
  | _ => false

/-- Two dashes end the options. A value of its own may not look like an option. -/
def scan (grammar : Grammar) (g : Given) : List String → Except Stop Given
  | [] => .ok g
  | arg :: rest => do
    if arg = "--" then g.addPositionals grammar rest
    else
      let read ← match arg.toList with
        | '-' :: '-' :: cs => readLong grammar g cs
        | '-' :: c :: cs => readShort grammar g (c :: cs)
        | _ => do pure (Read.done (← g.addPositional grammar arg))
      match read, rest with
      | .done g, rest => scan grammar g rest
      | .lacks _ _, [] => .error .misuse
      | .lacks g s, value :: rest =>
        if looksLikeOption value then .error .misuse
        else scan grammar (← g.addValue s value) rest

end PermitTypes.CommandLine
