import PermitTypes.Project.Init
import PermitTypes.Proofs.Project.Settling

namespace PermitTypes.Project.Compilation

open Files
open PermitTypes.Path (IsName)
open View (Changes)

/-- The directory that a run takes as its project. -/
def project (args : Arguments) (cwd : Path) : Path := cwd.joinText args.path

/-- What a run begins with: a config that can be had, and a source directory that is there. -/
structure Begins (root : Node) (args : Arguments) (cwd : Path) (config : Config) : Prop where
  loaded : (root.run (loadConfig (project args cwd))).1 = .ok config
  there : (root.run (Disk.isThere (config.sourcePath (project args cwd)))).1 = true

theorem plan_sourceDir (args : Arguments) (root : Path) (config : Config) :
    (plan args root config).sourceDir = config.sourcePath root :=
  rfl

section Compile

variable {root : Node} {args : Arguments} {cwd : Path} {config : Config}

theorem run_compile (root : Node) (args : Arguments) (cwd : Path) :
    root.run (compile args cwd) =
      match (root.run (loadConfig (project args cwd))).1 with
      | .error fl => (.refused fl, root)
      | .ok config =>
        if (root.run (Disk.isThere (config.sourcePath (project args cwd)))).1 = true then
          let plan := plan args (project args cwd) config
          let run := root.run (compileAll plan (documents root plan.sourceDir))
          (.compiled run.1, run.2)
        else (.refused (.noSourceDirectory (config.sourcePath (project args cwd))), root) := by
  have hsame : (root.run (loadConfig (project args cwd))).2 = root := Asks.loadConfig _ root
  rw [compile, show cwd.joinText args.path = project args cwd from rfl]
  dsimp only
  rw [Node.run_bind, hsame]
  cases (root.run (loadConfig (project args cwd))).1 with
  | error fl => rfl
  | ok config =>
      simp only [Node.run_bind, Node.run_isThere]
      rw [plan_sourceDir]
      cases (root.kindAt (config.sourcePath (project args cwd))).isOk <;> rfl

theorem run_compile_of_begins (h : Begins root args cwd config) :
    root.run (compile args cwd) =
      let plan := plan args (project args cwd) config
      let run := root.run (compileAll plan (documents root plan.sourceDir))
      (.compiled run.1, run.2) := by
  rw [run_compile, h.loaded]
  exact if_pos h.there

theorem run_compile_of_not_begins (h : ∀ config, ¬ Begins root args cwd config) :
    ∃ fl, root.run (compile args cwd) = (.refused fl, root) := by
  rw [run_compile]
  cases hc : (root.run (loadConfig (project args cwd))).1 with
  | error fl => exact ⟨fl, rfl⟩
  | ok config => exact ⟨_, if_neg fun hs => h config ⟨hc, hs⟩⟩

/-- What is printed is not written. -/
theorem run_compile_printed (h : args.toStdout = true) (root : Node) (cwd : Path) :
    (root.run (compile args cwd)).2 = root := by
  by_cases hb : ∃ config, Begins root args cwd config
  · obtain ⟨config, hb⟩ := hb
    rw [run_compile_of_begins hb]
    simp only [run_compileAll_printed (plan args (project args cwd) config) h]
  · obtain ⟨fl, hrun⟩ := run_compile_of_not_begins (not_exists.1 hb)
    rw [hrun]

theorem files_plan (h : args.toStdout = false) (hcwd : cwd.Sound) (config : Config) :
    (plan args (project args cwd) config).Files := by
  have hproject : (project args cwd).Sound := hcwd.joinText args.path
  refine ⟨h, hproject.joinText config.sourceDir, fun o ho => ?_⟩
  obtain ⟨text, -, rfl⟩ := Option.map_eq_some_iff.1 ho
  exact hproject.joinText text

theorem Begins.find (h : Begins root args cwd config) :
    root.view.find (config.sourcePath (project args cwd)) =
      .ok (spelled (config.sourcePath (project args cwd))) := by
  have hs := h.there
  rw [Node.run_isThere, Node.isOk_kindAt] at hs
  exact find_of_isOk hs

theorem sources_documents (hroot : root.IsTree) (plan : Plan) :
    Sources root plan (documents root plan.sourceDir) :=
  ⟨fun _ hf => (mem_documents hroot.wellFormed).1 hf, nodup_documents hroot.wellFormed _⟩

/-- A run that writes files. -/
theorem exists_run_compile (hroot : root.IsTree) (hcwd : cwd.Sound)
    (h : Begins root args cwd config) (hfiles : args.toStdout = false) :
    ∃ results after, root.run (compile args cwd) = (.compiled results, after) ∧ after.IsTree ∧
      Changes (WrittenAt results) root.view after.view ∧
      List.Forall₂ (Settled root (plan args (project args cwd) config) after.view)
        (documents root (config.sourcePath (project args cwd))) results ∧
      (root.run (compileAll (plan args (project args cwd) config)
        ((documents root (config.sourcePath (project args cwd))).filter fun f =>
          (rendering root (config.emitOptions args.flags) f).isOk))).2 = after := by
  obtain ⟨results, after, hrun, hafter, hchanges, hsettled, hfilter⟩ :=
    run_compileAll (files_plan hfiles hcwd config) (sources_documents hroot _) hroot (.refl _ _)
  refine ⟨results, after, ?_, hafter, hchanges, hsettled, hfilter⟩
  rw [run_compile_of_begins h]
  simp only [hrun]

end Compile

section Config

variable {root after : Node} {args : Arguments} {cwd : Path} {config : Config}

theorem isName_config : IsName Config.fileName := by decide

theorem isName_defaultSource : IsName ({} : Config).sourceDir := by decide

/-- A config that is not just missing is the same after declarations have been written. -/
theorem loadConfig_of_changes {project : Path} (hc : Changes IsDeclaration root.view after.view)
    (h : root.view.find (project.joinText Config.fileName) ≠ .error .missing) :
    (after.run (loadConfig project)).1 = (root.run (loadConfig project)).1 := by
  have hfind := hc.keeps.find root.closed_view root.view_nil_ne_none h
  refine loadConfig_congr ?_ ?_
  · rw [Node.isOk_kindAt, Node.isOk_kindAt, hfind]
  · rw [Node.readAt_eq, Node.readAt_eq, View.read, View.read, hfind]
    cases hf : root.view.find (project.joinText Config.fileName) with
    | error t => rfl
    | ok place =>
        have hplace : ¬ IsDeclaration place := by
          rw [place_of_find hf, spelled_joinText isName_config]
          exact not_isDeclaration_config _
        have hthere : root.view place ≠ none := root.view_ne_none_of_find hf
        rcases hc.elsewhere place hplace with hsame | ⟨hnone, -⟩
        · simp only [hsame]
        · exact absurd hnone hthere

/-- After declarations have been written a run begins as before, or a directory has taken the place
of a config that was missing. -/
theorem Begins.again (hc : Changes IsDeclaration root.view after.view)
    (h : Begins root args cwd config) :
    Begins after args cwd config ∨
      (root.kindAt ((project args cwd).joinText Config.fileName) = .error .missing ∧
        ∀ config, ¬ Begins after args cwd config) := by
  have hsource : (after.run (Disk.isThere (config.sourcePath (project args cwd)))).1 = true := by
    rw [Node.run_isThere, Node.isOk_kindAt, Node.find_of_keeps hc.keeps h.find]
    rfl
  by_cases hm : root.view.find ((project args cwd).joinText Config.fileName) = .error .missing
  · have hkind : root.kindAt ((project args cwd).joinText Config.fileName) = .error .missing :=
      Node.kindAt_of_find_error hm
    have hdefault : config = {} :=
      (Except.ok.inj ((loadConfig_of_missing (hkind ▸ rfl)).symm.trans h.loaded)).symm
    cases hk : (after.kindAt ((project args cwd).joinText Config.fileName)).isOk with
    | false => exact .inl ⟨hdefault ▸ loadConfig_of_missing hk, hsource⟩
    | true =>
        refine .inr ⟨hkind, fun other hb => ?_⟩
        have hfind := h.find
        rw [hdefault] at hfind
        rw [Config.sourcePath, isName_defaultSource.joinText_eq] at hfind
        rw [isName_config.joinText_eq] at hm
        have hnone := view_of_find_missing isName_config hfind hm
        rw [← isName_config.joinText_eq] at hnone
        have hafter := find_of_isOk (Node.isOk_kindAt after _ ▸ hk)
        have hplace : ¬ IsDeclaration (spelled ((project args cwd).joinText Config.fileName)) := by
          rw [spelled_joinText isName_config]
          exact not_isDeclaration_config _
        have hread : after.readAt ((project args cwd).joinText Config.fileName) =
            .error .isDirectory := by
          rw [Node.readAt_eq, View.read, hafter]
          rcases hc.elsewhere _ hplace with hsame | ⟨-, hd⟩
          · rw [hnone] at hsame
            exact absurd hsame (after.view_ne_none_of_find hafter)
          · simp only [hd]
        have hconfig := hb.loaded
        rw [loadConfig_of_error hk hread] at hconfig
        cases hconfig
  · refine .inl ⟨?_, hsource⟩
    rw [loadConfig_of_changes hc hm, h.loaded]

end Config

section Small

def unionWithoutShapes : String := "\x7b\"permit\": \x7b\"a\": \x7b\"filter\": []\x7d\x7d\x7d"

def onlyExtend : String := "\x7b\"permit\": \x7b\"b\": \x7b\"extend\": \"c\"\x7d\x7d\x7d"

def smallSources : List (Name × Node) :=
  [("orders", .directory [("d.permit.json", .file "\x7b\x7d".toUTF8)]),
    ("notes.json", .file "\x7b\x7d".toUTF8),
    ("broken.permit.json", .file unionWithoutShapes.toUTF8),
    (Init.exampleName, .file onlyExtend.toUTF8)]

/-- A project with a config that says nothing, a file that is no document, and three documents, of
which the first has no declarations. -/
def smallProject : Node :=
  .directory [(Config.fileName, .file "\x7b\x7d".toUTF8), ("src", .directory smallSources)]

def brokenDocument : Path := ⟨[".", "src", "broken.permit.json"]⟩

def smallDocuments : List Path :=
  [brokenDocument, ⟨[".", "src", Init.exampleName]⟩, ⟨[".", "src", "orders", "d.permit.json"]⟩]

theorem isTree_smallProject : smallProject.IsTree := ⟨rfl, by decide +kernel⟩

theorem project_small : (Path.ofText "").joinText "." = ⟨["."]⟩ := by decide +kernel

theorem sourcePath_small : Config.sourcePath {} ⟨["."]⟩ = ⟨[".", "src"]⟩ := by decide +kernel

theorem begins_smallProject (outputDir : Option String) (toStdout : Bool) (flags : FilterFlags) :
    Begins smallProject ⟨".", outputDir, toStdout, flags⟩ (.ofText "") {} := by
  constructor
  · rw [project, project_small]
    have hloaded : (smallProject.run (loadConfig ⟨["."]⟩)).1.toOption = some {} := by
      decide +kernel
    cases hc : (smallProject.run (loadConfig ⟨["."]⟩)).1 with
    | error fl => rw [hc] at hloaded; cases hloaded
    | ok config => rw [hc] at hloaded; exact congrArg _ (Option.some.inj hloaded)
  · rw [project, project_small, sourcePath_small]
    decide +kernel

theorem documents_smallProject : documents smallProject ⟨[".", "src"]⟩ = smallDocuments := by
  have hfiles : ((smallProject.filesAt ⟨[".", "src"]⟩).filter isDocument).Perm smallDocuments := by
    decide +kernel
  exact Path.mergeSort_eq_of_perm hfiles (by decide +kernel)
    (eq_of_components_eq isTree_smallProject.wellFormed)

theorem run_compile_smallProject (outputDir : Option String) (toStdout : Bool)
    (flags : FilterFlags) :
    smallProject.run (compile ⟨".", outputDir, toStdout, flags⟩ (.ofText "")) =
      let plan := plan ⟨".", outputDir, toStdout, flags⟩ ⟨["."]⟩ {}
      let run := smallProject.run (compileAll plan smallDocuments)
      (.compiled run.1, run.2) := by
  rw [run_compile_of_begins (begins_smallProject outputDir toStdout flags), project, project_small,
    ← documents_smallProject, ← sourcePath_small]
  rfl

end Small

end PermitTypes.Project.Compilation
