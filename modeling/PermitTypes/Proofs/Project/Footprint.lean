import PermitTypes.Proofs.Files.Paving
import PermitTypes.Proofs.Project.Initialising

namespace PermitTypes.Project

open Files
open Compilation (isName_config smallProject isTree_smallProject)
open View (Changes Keeps Lays)

namespace Init

variable {root : Node} {args : Arguments} {cwd : Path}

/-- What initialising may lay down, and where. -/
@[mk_iff]
inductive Laid (args : Arguments) (cwd : Path) : Place → Entry → Prop
  | directory {place : Place} (passes : Passes (args.sourcePath cwd) place) :
      Laid args cwd place .directory
  | document : Laid args cwd (spelled (args.examplePath cwd)) (.file exampleText.toUTF8)
  | config : Laid args cwd (spelled (configPath cwd)) (.file args.config.encode.prettyText.toUTF8)

theorem Laid.passes {place : Place} (h : Laid args cwd place .directory) :
    Passes (args.sourcePath cwd) place := by
  cases h with
  | directory hpasses => exact hpasses

theorem lays_init (hcwd : cwd.Sound) (args : Arguments) :
    Does (Lays (Laid args cwd)) (init args cwd : StateM Node _) := by
  have hsource : (args.sourcePath cwd).Sound := hcwd.joinText _
  have hdirectories : Does (Lays (Laid args cwd))
      (Disk.makeDirectories (args.sourcePath cwd) : StateM Node _) :=
    Does.lays_makeDirectories hsource fun _ => .directory
  have hdocument : Does (Lays (Laid args cwd))
      (Disk.write (args.examplePath cwd) exampleText : StateM Node _) :=
    Does.lays_write (hsource.joinText _) .document
  have hconfig : Does (Lays (Laid args cwd))
      (Disk.write (configPath cwd) args.config.encode.prettyText : StateM Node _) :=
    Does.lays_write (hcwd.joinText _) .config
  apply (Does.isThere _).bind
  intro there
  split
  · exact .pure _
  · apply (does_unlessThere .sourceDirectory hdirectories).bind
    intro directory
    cases directory with
    | error t => exact .pure _
    | ok made =>
        apply (does_unlessThere .example hdocument).bind
        intro document
        cases document with
        | error t => exact .pure _
        | ok written =>
            apply hconfig.bind
            intro put
            cases put <;> exact .pure _

theorem spelled_config (cwd : Path) :
    spelled (configPath cwd) = .text Config.fileName :: spelled cwd :=
  spelled_joinText isName_config

theorem spelled_example (args : Arguments) (cwd : Path) :
    spelled (args.examplePath cwd) = .text exampleName :: spelled (args.sourcePath cwd) :=
  spelled_joinText isName_example

theorem config_ne_example (args : Arguments) (cwd : Path) :
    spelled (configPath cwd) ≠ spelled (args.examplePath cwd) := by
  rw [spelled_config, spelled_example]
  exact fun h => absurd (List.cons.inj h).1 (by decide)

/-- What is joined to a directory is walked to from its place. The empty path is joined to as if
it were one. -/
theorem walk_base_of_directory {p : Path} (hroot : root.IsTree)
    (h : root.kindAt p = .ok .directory ∨ p.pieces = [.text ""]) :
    root.view.walk [] p.base = .ok (spelled p) ∧ root.view (spelled p) = some .directory := by
  rcases h with h | h
  · obtain ⟨place, e, hfind, he, hkind⟩ := Node.kindAt_eq_ok_iff.1 h
    obtain rfl := place_of_find hfind
    have hdir : root.view (spelled p) = some .directory := by
      cases e with
      | file content => cases hkind
      | special => cases hkind
      | directory => exact he
    exact ⟨View.walk_base (find_eq_ok_iff.1 hfind).2, hdir⟩
  · have hbase : p.base = [] := by
      rw [Path.base, h]
      rfl
    have hplace : spelled p = [] := by
      rw [spelled, Path.steps, h]
      rfl
    rw [hbase, hplace, Node.view_nil, hroot.top]
    exact ⟨rfl, rfl⟩

/-- Where the config has not changed, it is not found any sooner than before. -/
theorem Guarded.before {after : Node} (hroot : root.IsTree) (hkeeps : Keeps root.view after.view)
    (hcwd : root.kindAt cwd = .ok .directory ∨ cwd.pieces = [.text ""])
    (hsame : after.view (spelled (configPath cwd)) = root.view (spelled (configPath cwd)))
    (h : Guarded after args cwd) : Guarded root args cwd := by
  obtain ⟨hthere, hforce⟩ := h
  refine ⟨?_, hforce⟩
  rw [Node.isOk_kindAt] at hthere ⊢
  have hfind := find_of_isOk hthere
  by_cases hm : root.view.find (configPath cwd) = .error .missing
  · obtain ⟨hwalk, hdir⟩ := walk_base_of_directory hroot hcwd
    have hnone := view_of_missing isName_config hwalk hdir (configPath_eq cwd ▸ hm)
    rw [← configPath_eq, ← hsame] at hnone
    exact absurd hnone (after.view_ne_none_of_find hfind)
  · rwa [← hkeeps.find root.closed_view root.view_nil_ne_none hm]

theorem Course.guarded_of_kept {after : Node} (h : Course root args cwd .kept after) :
    Guarded root args cwd := by
  cases h with
  | kept hguarded => exact hguarded

theorem Course.stopped_of_failure {outcome : Outcome} {after : Node} {palette : Text.Palette}
    (h : Course root args cwd outcome after) (hf : (outcome.answer palette args).failure ≠ none) :
    Changes (New root.view (args.examplePath cwd) after.view) root.view after.view := by
  cases h with
  | kept _ => exact absurd rfl hf
  | stopped _ hchanges => exact hchanges
  | finished _ _ _ _ => exact absurd rfl hf

end Init

open Init

/-- Initialising that fails leaves the config as it was, so that it does not keep anyone from
initialising later. Only where nothing stood there may a directory have come to stand, if the path
of the source directory leads through the place. -/
theorem failed_init_leaves_config {root : Node} (hroot : root.IsTree) (args later : Init.Arguments)
    (cwd : String) (hcwd : root.kindAt (.ofText cwd) = .ok .directory ∨ cwd = "")
    (palette : Text.Palette)
    (hfailed : ((root.run (init args (.ofText cwd))).1.answer palette args).failure ≠ none) :
    let after := (root.run (init args (.ofText cwd))).2
    let config := spelled (configPath (.ofText cwd))
    (after.view config = root.view config ∧
      ((after.run (init later (.ofText cwd))).1 = .kept →
        (root.run (init later (.ofText cwd))).1 = .kept)) ∨
    (root.view config = none ∧ after.view config = some .directory ∧
      Passes (args.sourcePath (.ofText cwd)) config) := by
  intro after config
  have htext := Path.sound_ofText cwd
  obtain ⟨htree, hlays⟩ := lays_init htext args root hroot
  have hchanges := (course_init hroot htext args).stopped_of_failure hfailed
  have hconfig : ¬ New root.view (args.examplePath (.ofText cwd)) after.view config := fun hnew =>
    config_ne_example args _ (place_of_find hnew.2)
  rcases hchanges.elsewhere config hconfig with hsame | ⟨hnone, hdirectory⟩
  · refine .inl ⟨hsame, fun hkept => ?_⟩
    have hpieces : root.kindAt (.ofText cwd) = .ok .directory ∨
        (Path.ofText cwd).pieces = [.text ""] :=
      hcwd.imp_right fun h => by rw [h]; rfl
    have hguarded : Guarded after later (.ofText cwd) :=
      (hkept ▸ course_init htree htext later).guarded_of_kept
    rw [run_init_of_guarded (hguarded.before hroot hchanges.keeps hpieces hsame)]
  · refine .inr ⟨hnone, hdirectory, ?_⟩
    rcases hlays config .directory hdirectory with hold | hlaid
    · rw [hnone] at hold
      cases hold
    · exact hlaid.passes

/-- The example cannot be written below a file. -/
theorem smallProject_failed_init :
    smallProject.IsTree ∧
      let args : Init.Arguments := { sourceDir := "src/example.permit.json", force := true }
      let run := smallProject.run (init args (.ofText "/src/.."))
      smallProject.kindAt (.ofText "/src/..") = .ok .directory ∧
        (run.1.answer ⟨false⟩ args).failure ≠ none ∧
        run.2.view [.text Config.fileName] = smallProject.view [.text Config.fileName] := by
  have hcwd : smallProject.kindAt (.ofText "/src/..") = .ok .directory := by decide +kernel
  have hfailed : ((smallProject.run (init { sourceDir := "src/example.permit.json", force := true }
      (.ofText "/src/.."))).1.answer ⟨false⟩
      { sourceDir := "src/example.permit.json", force := true }).failure ≠ none :=
    Option.isSome_iff_ne_none.1 (by decide +kernel)
  refine ⟨isTree_smallProject, hcwd, hfailed, ?_⟩
  obtain ⟨hsame, -⟩ | ⟨-, -, hpasses⟩ :=
    failed_init_leaves_config isTree_smallProject _ {} "/src/.." (.inl hcwd) ⟨false⟩ hfailed
  · exact hsame
  · exact absurd hpasses (by decide +kernel)

/-- The source directory can take the place of the config. Initialising fails, and it keeps one from
initialising later. -/
theorem failed_init_takes_place_of_config :
    let args : Init.Arguments := { sourceDir := Config.fileName }
    let run := Node.empty.run (init args (.ofText ""))
    (run.1.answer ⟨false⟩ args).failure ≠ none ∧
      Node.empty.view [.text Config.fileName] = none ∧
      run.2.view [.text Config.fileName] = some .directory ∧
      (Node.empty.run (init {} (.ofText ""))).1 ≠ .kept ∧
      (run.2.run (init {} (.ofText ""))).1 = .kept := by
  have hempty : Node.empty.IsTree := ⟨rfl, Node.wellFormed_empty⟩
  refine ⟨Option.isSome_iff_ne_none.1 (by decide +kernel), rfl, by decide +kernel, fun hkept => ?_,
    ?_⟩
  · have hguarded : Guarded Node.empty {} (.ofText "") :=
      (hkept ▸ course_init hempty (Path.sound_ofText "") {}).guarded_of_kept
    exact absurd hguarded.1 (by decide +kernel)
  · rw [run_init_of_guarded ⟨by decide +kernel, rfl⟩]

end PermitTypes.Project
