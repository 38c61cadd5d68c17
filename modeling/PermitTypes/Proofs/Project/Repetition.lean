import PermitTypes.Proofs.Project.Beginning

namespace PermitTypes.Project

open Files
open View (Changes)

namespace Compilation

/-- Which documents a run reports as compiled and which as failed, unless it could not begin. -/
def Outcome.reports : Outcome → Option (List (Path × Bool))
  | refused _ => none
  | compiled results => some (Compilation.reports results)

variable {root : Node} {args : Arguments} {cwd : Path} {config : Config}

/-- A second run that begins as the first one finds all that it would do done or barred for good. -/
theorem run_compile_again (hroot : root.IsTree) (hfiles : args.toStdout = false)
    (hcwd : cwd.Sound) (h : Begins root args cwd config) :
    ∃ first second after, root.run (compile args cwd) = (first, after) ∧
      after.run (compile args cwd) = (second, after) ∧
      (root.kindAt ((project args cwd).joinText Config.fileName) ≠ .error .missing →
        second.reports = first.reports) := by
  have hplan := files_plan hfiles hcwd config
  obtain ⟨results, after, hrun, hafter, hwritten, hsettled, -⟩ :=
    exists_run_compile hroot hcwd h hfiles
  have hchanges : Changes IsDeclaration root.view after.view :=
    changes_isDeclaration hplan (sources_documents hroot _) hsettled hwritten
  rcases h.again hchanges with hagain | ⟨hmissing, hnot⟩
  · obtain ⟨others, hothers, hreports⟩ :=
      run_compileAll_of_settled hplan (sources_documents hroot _) hafter hchanges hsettled
    have hdocuments := documents_of_changes hroot hafter hchanges h.find
    refine ⟨_, .compiled others, after, hrun, ?_, fun _ => congrArg some hreports⟩
    rw [plan_sourceDir] at hothers
    simp only [run_compile_of_begins hagain, plan_sourceDir, hdocuments, hothers]
  · obtain ⟨fl, hrefused⟩ := run_compile_of_not_begins hnot
    exact ⟨_, _, after, hrun, hrefused, fun hthere => absurd hmissing hthere⟩

end Compilation

open Compilation

/-- To compile once more changes no file and no directory, and reports the same unless the config
was missing at first: an output directory may have taken its place. -/
theorem compile_twice {root : Node} (hroot : root.IsTree) (args : Arguments) (cwd : String) :
    let config := ((Path.ofText cwd).joinText args.path).joinText Config.fileName
    let first := root.run (compile args (.ofText cwd))
    let second := first.2.run (compile args (.ofText cwd))
    second.2 = first.2 ∧
      (root.kindAt config ≠ .error .missing → second.1.reports = first.1.reports) := by
  intro config first second
  cases hstdout : args.toStdout with
  | true =>
      have hfirst : first.2 = root := run_compile_printed hstdout root _
      have hsecond : second = first := congrArg (·.run (compile args (.ofText cwd))) hfirst
      rw [hsecond]
      exact ⟨rfl, fun _ => rfl⟩
  | false =>
      by_cases hb : ∃ config, Begins root args (.ofText cwd) config
      · obtain ⟨_, hb⟩ := hb
        obtain ⟨o, o', after, hrun, hagain, hreports⟩ :=
          run_compile_again hroot hstdout (Path.sound_ofText cwd) hb
        have hfirst : first = (o, after) := hrun
        have hsecond : second = (o', after) := by
          rw [← hagain]
          exact congrArg (fun r => r.2.run (compile args (.ofText cwd))) hfirst
        rw [hsecond, hfirst]
        exact ⟨rfl, hreports⟩
      · obtain ⟨fl, hrun⟩ := run_compile_of_not_begins (not_exists.1 hb)
        have hfirst : first.2 = root := congrArg Prod.snd hrun
        have hsecond : second = first := congrArg (·.run (compile args (.ofText cwd))) hfirst
        rw [hsecond]
        exact ⟨rfl, fun _ => rfl⟩

theorem smallProject_compiled_twice :
    smallProject.IsTree ∧
      let first := smallProject.run (compile { outputDir := some "out" } (.ofText ""))
      let second := first.2.run (compile { outputDir := some "out" } (.ofText ""))
      first.1.reports = some [(⟨["broken.permit.json"]⟩, false), (⟨[Init.exampleName]⟩, true),
        (⟨["orders", "d.permit.json"]⟩, true)] ∧
      second.2 = first.2 ∧ second.1.reports = first.1.reports := by
  have hconfig : smallProject.kindAt (((Path.ofText "").joinText ".").joinText Config.fileName) =
      .ok .file := by decide +kernel
  obtain ⟨htree, hreports⟩ := compile_twice isTree_smallProject { outputDir := some "out" } ""
  refine ⟨isTree_smallProject, ?_, htree, hreports ?_⟩
  · rw [run_compile_smallProject]
    decide +kernel
  · rw [hconfig]
    exact fun h => by cases h

end PermitTypes.Project
