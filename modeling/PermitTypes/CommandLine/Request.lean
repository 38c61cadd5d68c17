import PermitTypes.CommandLine.Scan
import PermitTypes.Project.Console

namespace PermitTypes.CommandLine

open Project

/-- What the command line asks for. -/
inductive Request where
  | init (args : Init.Arguments)
  | emit (args : EmitArguments)
  | compile (args : Compilation.Arguments)
  | version
  | help

def filterSwitches : List Switch :=
  [⟨"filter-optional", none, false⟩, ⟨"filter-required", none, false⟩]

def outputSwitch : Switch := ⟨"out-dir", some 'o', true⟩

def initGrammar : Grammar where
  switches := [⟨"src-dir", some 's', true⟩, outputSwitch, ⟨"force", some 'f', false⟩]
  positionals := 0

def emitGrammar : Grammar where
  switches := filterSwitches ++ [⟨"lines", none, false⟩]
  positionals := 1
  emptyPositional := false

def compileGrammar : Grammar where
  switches := [outputSwitch, ⟨"stdout", none, false⟩] ++ filterSwitches
  positionals := 1

/-- A filter cannot be optional and required. -/
def Given.filterFlags (g : Given) : Except Stop FilterFlags :=
  let flags : FilterFlags := ⟨g.hasFlag "filter-optional", g.hasFlag "filter-required"⟩
  if flags.optional && flags.required then .error .misuse else .ok flags

def initRequest (g : Given) : Request :=
  .init ⟨(g.value? "src-dir").getD "src", g.value? "out-dir", g.hasFlag "force"⟩

def emitRequest (g : Given) : Except Stop Request := do
  let flags ← g.filterFlags
  match g.positionals with
  | [file] => .ok (.emit ⟨.ofText file, flags, g.hasFlag "lines"⟩)
  | _ => .error .misuse

def compileRequest (g : Given) : Except Stop Request := do
  let flags ← g.filterFlags
  .ok (.compile ⟨g.positionals.headD ".", g.value? "out-dir", g.hasFlag "stdout", flags⟩)

def commandNames : List String := ["init", "emit", "compile", "help"]

def helpRequest : List String → Except Stop Request
  | [] => .ok .help
  | [name] => if name ∈ commandNames then .ok .help else .error .misuse
  | _ => .error .misuse

/-- Options before the command: only the version and the help. -/
def readLeading (arg : String) : Except Stop Request :=
  match arg.toList with
  | '-' :: 'V' :: _ => .ok .version
  | '-' :: 'h' :: _ => .ok .help
  | _ =>
    if arg = "--version" then .ok .version
    else if arg = "--help" then .ok .help
    else .error .misuse

def read : List String → Except Stop Request
  | [] => .error .misuse
  | "init" :: args => do .ok (initRequest (← scan initGrammar {} args))
  | "emit" :: args => do emitRequest (← scan emitGrammar {} args)
  | "compile" :: args => do compileRequest (← scan compileGrammar {} args)
  | "help" :: names => helpRequest names
  | arg :: _ => readLeading arg

end PermitTypes.CommandLine
