import PermitTypes.Proofs.Project.Effect
import PermitTypes.Proofs.Project.Report

namespace PermitTypes.Project

open Files Text

namespace Compilation

/-- How the declarations of the found documents are delivered: printed by one run, written by
another one, and emitted one by one in the directory of the project. -/
structure Agree (root : Node) (flags : FilterFlags) (project : Path) (plan : Plan)
    (found : List Path) (printing writing : Outcome × Node) (palette : Palette) : Prop where
  printed : (printing.1.console palette true).out =
    "\n".intercalate
      ((rendered root plan.options found).map fun s =>
        "// " ++ (relativeTo plan.sourceDir s.1).text ++ "\n" ++ s.2)
  unchanged : printing.2 = root
  counted : writing.1.results.length = found.length
  written : ∀ f r, (f, r) ∈ found.zip writing.1.results →
    r.document = relativeTo plan.sourceDir f ∧
      match rendering root plan.options f with
      | .ok text =>
        (r.outcome = .ok (.written (plan.output f)) ∧
          writing.2.readAt (plan.output f) = .ok text.toUTF8) ∨
        ∃ t, r.outcome = .error (.files t)
      | .error fl => r.outcome = .error fl
  /-- Each document can be named in the directory of the project. -/
  reachable : ∀ f ∈ found, ∃ file, project.join file = f
  emitted : ∀ f ∈ found, ∀ file, project.join file = f →
    match rendering root plan.options f with
    | .ok text => emitAnswer (root.run (emit { file, flags } project)).1 = ⟨.printed text, none⟩
    | .error fl =>
      emitAnswer (root.run (emit { file, flags } project)).1 = ⟨{}, some fl⟩ ∧
        Shows (printing.1.console palette true)
          (failureLine palette (relativeTo plan.sourceDir f) fl) ∧
        Shows (writing.1.console palette false)
          (failureLine palette (relativeTo plan.sourceDir f) fl)

section Agree

variable {root : Node} {args : Arguments} {cwd : Path} {config : Config}

end Agree

end Compilation

open Compilation

end PermitTypes.Project
