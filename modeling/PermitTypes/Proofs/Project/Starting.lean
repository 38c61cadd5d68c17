import PermitTypes.Proofs.Files.Respelling
import PermitTypes.Proofs.Project.Footprint
import PermitTypes.Proofs.Project.Mirroring

namespace PermitTypes.Project

open Files Compilation
open PermitTypes.Path (IsName)
open View (Lays Ready)

namespace Init

def exampleDeclaration : String := "example" ++ declarationSuffix

/-- Where the declarations of the example go. -/
def exampleOutput (source : Path) : Path := outputPath source none (source.joinText exampleName)

theorem exampleDeclaration_eq : exampleDeclaration = "example.d.ts" := by decide +kernel

section Started

variable {root after : Node} {args : Arguments} {cwd : Path}

/-- Below an empty directory there is nothing. -/
theorem view_below_empty {place : Place} (h : root.at? place = some .empty) {names : List Name}
    (hne : names ≠ []) : root.view (names ++ place) = none := by
  obtain ⟨first, rest, hfirst⟩ := List.exists_cons_of_ne_nil (List.reverse_ne_nil_iff.2 hne)
  have hplace : root.get? place.reverse = some .empty := h
  rw [Node.view_eq_look, Node.look, List.reverse_append, Node.get?_append, hplace, hfirst]
  rfl

/-- A compilation of the directory spells its paths with a dot in them. -/
abbrev dotted (cwd : Path) : Path := project {} cwd

/-- An empty project directory, and arguments that put the sources below it and the output next to
them. -/
structure Setting (root : Node) (args : Arguments) (cwd : Path) : Prop where
  sound : cwd.Sound
  empty : root.at? (spelled cwd) = some .empty
  inside : spelled cwd <:+ spelled (args.sourcePath cwd)
  free : ¬ Passes (args.sourcePath cwd) (spelled (args.examplePath cwd))
  beside : args.outputDir = none
  fits : isLongPath (configPath (dotted cwd)) = false

/-- What initialising has left of such a directory. -/
structure Started (root : Node) (args : Arguments) (cwd : Path) (after : Node) : Prop
    extends Setting root args cwd where
  tree : after.IsTree
  laid : Lays (Laid args cwd) root.view after.view
  config : after.view.find (configPath cwd) = .ok (spelled (configPath cwd))
  content : after.view.read (configPath cwd) = .ok args.config.encode.prettyText.toUTF8
  document : after.view.find (args.examplePath cwd) = .ok (spelled (args.examplePath cwd))

theorem Setting.not_guarded (h : Setting root args cwd) : ¬ Guarded root args cwd := by
  rintro ⟨hthere, -⟩
  rw [Node.isOk_kindAt] at hthere
  have hconfig := root.view_ne_none_of_find (find_of_isOk hthere)
  rw [spelled_config] at hconfig
  exact hconfig (view_below_empty h.empty (List.cons_ne_nil _ []))

theorem Course.started {outcome : Outcome} {palette : Text.Palette}
    (h : Course root args cwd outcome after) (hsetting : Setting root args cwd)
    (hs : (outcome.answer palette args).failure = none) (htree : after.IsTree)
    (hlays : Lays (Laid args cwd) root.view after.view) : Started root args cwd after := by
  cases h with
  | kept hguarded => exact absurd hguarded hsetting.not_guarded
  | stopped _ _ => cases hs
  | finished _ _ hthere hput =>
      rw [Node.isOk_kindAt] at hthere
      exact ⟨hsetting, htree, hlays, hput.find, hput.read,
        Node.find_of_keeps hput.changes.keeps (find_of_isOk hthere)⟩

theorem started_of_init (hroot : root.IsTree) (hsetting : Setting root args cwd)
    {palette : Text.Palette}
    (hs : ((root.run (init args cwd)).1.answer palette args).failure = none) :
    Started root args cwd (root.run (init args cwd)).2 := by
  obtain ⟨htree, hlays⟩ := lays_init hsetting.sound args root hroot
  exact (course_init hroot hsetting.sound args).started hsetting hs htree hlays

namespace Started

theorem sound_source (h : Started root args cwd after) :
    (args.sourcePath (dotted cwd)).Sound :=
  (h.sound.joinText _).joinText _

theorem directory (h : Started root args cwd after) : after.view (spelled cwd) = some .directory :=
  (walk_base_of_find (configPath_eq cwd ▸ h.config)).2

/-- Below the source directory everything is new. -/
theorem laid_below (h : Started root args cwd after) {names : List Name} (hne : names ≠ [])
    {e : Entry} (he : after.view (names ++ spelled (args.sourcePath cwd)) = some e) :
    Laid args cwd (names ++ spelled (args.sourcePath cwd)) e := by
  refine (h.laid _ e he).resolve_left fun hold => ?_
  obtain ⟨above, habove⟩ := h.inside
  rw [← habove, ← List.append_assoc,
    view_below_empty h.empty (List.append_ne_nil_of_left_ne_nil hne above)] at hold
  cases hold

theorem view_example (h : Started root args cwd after) :
    after.view (spelled (args.examplePath cwd)) = some (.file exampleText.toUTF8) := by
  obtain ⟨e, he⟩ := Option.ne_none_iff_exists'.1 (after.view_ne_none_of_find h.document)
  have hlaid := he
  rw [spelled_example] at hlaid
  have hlaid := h.laid_below (List.cons_ne_nil _ []) hlaid
  rw [List.singleton_append, ← spelled_example, laid_iff] at hlaid
  rcases hlaid with ⟨hp, -⟩ | ⟨-, rfl⟩ | ⟨hplace, -⟩
  · exact absurd hp h.free
  · exact he
  · exact absurd hplace.symm (config_ne_example args cwd)

/-- Next to the example there is nothing but the config. -/
theorem view_beside_example (h : Started root args cwd after) {name : Name}
    (hexample : name ≠ exampleName) (hconfig : name ≠ Config.fileName)
    (hpasses : ¬ Passes (args.sourcePath cwd) (name :: spelled (args.sourcePath cwd))) :
    after.view (name :: spelled (args.sourcePath cwd)) = none := by
  by_contra hne
  obtain ⟨e, he⟩ := Option.ne_none_iff_exists'.1 hne
  have hlaid := h.laid_below (List.cons_ne_nil name []) he
  rw [List.singleton_append, laid_iff, spelled_example, spelled_config] at hlaid
  rcases hlaid with ⟨hp, -⟩ | ⟨hplace, -⟩ | ⟨hplace, -⟩
  · exact hpasses hp
  · exact hexample (List.cons.inj hplace).1
  · exact hconfig (List.cons.inj hplace).1

/-- No file below the source directory but the example is named as a document. -/
theorem eq_example (h : Started root args cwd after) {names : List Name} {stem : String}
    {content : ByteArray} (hne : names ≠ [])
    (hname : names = names.dropLast ++ [.text (stem ++ documentSuffix)])
    (hfile : after.view (names.reverse ++ spelled (args.sourcePath cwd)) = some (.file content)) :
    names = [.text exampleName] := by
  have hlaid := h.laid_below (List.reverse_ne_nil_iff.2 hne) hfile
  rw [laid_iff, spelled_example, spelled_config] at hlaid
  rcases hlaid with ⟨-, he⟩ | ⟨hplace, -⟩ | ⟨hplace, -⟩
  · cases he
  · rw [← List.singleton_append, List.append_cancel_right_eq] at hplace
    rw [← List.reverse_reverse names, hplace]
    rfl
  · rw [hname, List.reverse_append, List.reverse_singleton, List.append_assoc,
      List.singleton_append, List.cons.injEq] at hplace
    have hstem := stem?_append stem
    have hconfig : stem? Config.fileName = none := by decide
    rw [Name.text.inj hplace.1, hconfig] at hstem
    cases hstem

theorem spelled_source (args : Arguments) (cwd : Path) :
    spelled (args.sourcePath (dotted cwd)) = spelled (args.sourcePath cwd) :=
  spelled_join_dot cwd (.ofText args.sourceDir)

theorem examplePath_join (args : Arguments) (cwd : Path) :
    args.examplePath cwd = cwd.join ((Path.ofText args.sourceDir).joinName exampleName) := by
  rw [examplePath_eq]
  exact (Path.join_below cwd (Path.sound_ofText args.sourceDir)
    (List.forall_mem_singleton.2 isName_example)).symm

theorem find_document (h : Started root args cwd after)
    (hlong : isLongPath (args.examplePath (dotted cwd)) = false) :
    after.view.find (args.examplePath (dotted cwd)) = .ok (spelled (args.examplePath cwd)) := by
  rw [examplePath_join args (dotted cwd)] at hlong ⊢
  exact find_join_dot h.directory hlong (examplePath_join args cwd ▸ h.document)

/-- The path of the source directory fits if that of the example does. -/
theorem fits_source (h : Started root args cwd after)
    (hlong : isLongPath (args.examplePath (dotted cwd)) = false) :
    isLongPath (args.sourcePath (dotted cwd)) = false := by
  by_cases he : (args.sourcePath (dotted cwd)).pieces = [.text ""]
  · rw [isLongPath, Path.size, he]
    decide
  · have hfind := Node.find_of_joinName (examplePath_eq _ _ ▸ h.find_document hlong) he
    exact (Node.refusal?_eq_none_iff.1 (find_eq_ok_iff.1 hfind).1).2.2

theorem source_directory (h : Started root args cwd after) :
    after.view (spelled (args.sourcePath cwd)) = some .directory :=
  (walk_base_of_find (examplePath_eq args cwd ▸ h.document)).2

theorem find_source (h : Started root args cwd after)
    (hfits : isLongPath (args.sourcePath (dotted cwd)) = false) :
    after.view.find (args.sourcePath (dotted cwd)) = .ok (spelled (args.sourcePath cwd)) := by
  by_cases he : (args.sourcePath cwd).pieces = [.text ""]
  · obtain ⟨hcwd, hsource⟩ := Path.eq_empty_of_joinText h.sound.ne_nil he
    have hempty : cwd = ⟨[""]⟩ := by rw [← hcwd]
    subst hempty
    have hpath : args.sourcePath (dotted ⟨[""]⟩) = ⟨[".", ""]⟩ := by
      rw [Arguments.sourcePath, hsource]
      decide
    have htop : after.view [] = some .directory := h.directory
    rw [← spelled_source, hpath, find_eq_ok_iff, View.walk, View.step_idle htop rfl]
    exact ⟨by decide, (View.walk_singleton _ _ _).trans (View.step_idle htop rfl)⟩
  · exact find_join_dot h.directory hfits 
      (Node.find_of_joinName (examplePath_eq args cwd ▸ h.document) he)

theorem begins (h : Started root args cwd after)
    (hfits : isLongPath (args.sourcePath (dotted cwd)) = false) :
    Begins after {} cwd args.config := by
  have hfind : after.view.find (configPath (dotted cwd)) = .ok (spelled (configPath cwd)) :=
    find_join_dot h.directory h.fits h.config
  constructor
  · apply loadConfig_of_parse ?_ ?_ (Config.parse_prettyText args.config)
    · rw [Node.isOk_kindAt, hfind]
      rfl
    · have hread := h.content
      rw [View.read, h.config] at hread
      rw [Node.readAt_eq, View.read, hfind]
      exact hread
  · rw [Node.run_isThere, Node.isOk_kindAt]
    exact (congrArg Except.isOk (h.find_source hfits)).trans rfl

theorem reach_source (h : Started root args cwd after)
    (hfits : isLongPath (args.sourcePath (dotted cwd)) = false) :
    after.view.reach [] (args.sourcePath (dotted cwd)).steps =
      .directory (spelled (args.sourcePath cwd)) := by
  rw [Path.steps, View.reach_stepsOf, View.reach_eq_directory_iff]
  exact ⟨(find_eq_ok_iff.1 (h.find_source hfits)).2, h.source_directory⟩

section Compiled

variable (hfits : isLongPath (args.sourcePath (dotted cwd)) = false)

include hfits

theorem source_example (h : Started root args cwd after) :
    Source after.view (args.sourcePath (dotted cwd)) (args.examplePath (dotted cwd))
      [.text exampleName] "example" := by
  rw [examplePath_eq]
  refine ⟨⟨rfl, List.forall_mem_singleton.2 isName_example, ⟨hfits, trivial⟩,
    (spelled_source args cwd).symm ▸ h.find_source hfits, exampleText.toUTF8, ?_⟩,
    Path.fileName?_joinName isName_example _, by decide⟩
  rw [spelled_source, List.reverse_singleton, List.singleton_append, ← spelled_example]
  exact h.view_example

theorem documents_eq (h : Started root args cwd after) :
    documents after (args.sourcePath (dotted cwd)) = [args.examplePath (dotted cwd)] := by
  have hwf := h.tree.wellFormed
  have hsource := h.source_example hfits
  apply List.perm_singleton.1
  apply (List.perm_ext_iff_of_nodup (nodup_documents hwf _) (List.nodup_singleton _)).2
  intro f
  rw [mem_documents hwf, List.mem_singleton]
  constructor
  · rintro ⟨names, stem, hf⟩
    obtain ⟨content, hfile⟩ := hf.found.file
    rw [spelled_source] at hfile
    have hne : names ≠ [] := by
      rintro rfl
      rw [List.reverse_nil, List.nil_append, h.source_directory] at hfile
      cases hfile
    rw [hf.found.path, h.eq_example hne (hf.names_eq hne) hfile, examplePath_eq]
    rfl
  · rintro rfl
    exact ⟨_, _, hsource⟩

/-- The example is the only document that is delivered. -/
theorem run_compile (h : Started root args cwd after) :
    after.run (compile {} cwd) =
      let delivered := after.run (deliver { filterOptional := false }
        (some (exampleOutput (args.sourcePath (dotted cwd)))) (args.examplePath (dotted cwd)))
      (.compiled [⟨.ofText exampleName, delivered.1⟩], delivered.2) := by
  have hplan : plan {} (dotted cwd) args.config =
      ⟨args.sourcePath (dotted cwd), none, { filterOptional := false }, false⟩ := by
    have hnone : args.config.outputDir = none := h.beside
    rw [plan, hnone]
    rfl
  have hrelative : relativeTo (args.sourcePath (dotted cwd)) (args.examplePath (dotted cwd)) =
      .ofText exampleName := by
    rw [(h.source_example hfits).relativeTo_eq,
      Path.ofText_of_not_mem (Name.has_text_eq_false.1 isName_example.slashFree)]
    rfl
  rw [run_compile_of_begins (h.begins hfits), hplan]
  dsimp only
  rw [h.documents_eq hfits, run_compileAll_cons, hrelative]
  rfl

/-- A document is not read whose path is too long. -/
theorem failure_of_long (h : Started root args cwd after)
    (hlong : isLongPath (args.examplePath (dotted cwd)) = true) :
    (after.run (compile {} cwd)).1.failure? ≠ none := by
  obtain ⟨t, hr⟩ := Node.exists_refusal_of_isLongPath hlong
  have hread : after.readAt (args.examplePath (dotted cwd)) = .error t := by
    simp only [Node.readAt_eq, View.read, View.find, hr]
  have hrendering : rendering after { filterOptional := false } (args.examplePath (dotted cwd)) =
      .error (.load (.unreadable (args.examplePath (dotted cwd)) t)) := by
    simp only [rendering_eq, loadDocument, Disk.readText, Node.run_bind, Node.run_read, hread,
      Node.run_pure]
  rw [h.run_compile hfits, run_deliver_of_error hrendering]
  exact Option.some_ne_none _

end Compiled

section Delivered

variable (hlong : isLongPath (args.examplePath (dotted cwd)) = false)

include hlong

theorem exists_rendering (h : Started root args cwd after) :
    ∃ d text, Schema.Document.parse exampleText = .ok d ∧
      Emit.documentText { filterOptional := false } d = .ok text ∧
      rendering after { filterOptional := false } (args.examplePath (dotted cwd)) = .ok text := by
  obtain ⟨d, text, hparse, htext⟩ := exists_rendering_example
  have hread : after.readAt (args.examplePath (dotted cwd)) = .ok exampleText.toUTF8 := by
    rw [Node.readAt_eq, View.read, h.find_document hlong]
    simp only [h.view_example]
  exact ⟨d, text, hparse, htext, rendering_eq_ok_iff.2 ⟨_, d, hread, hparse, htext⟩⟩

/-- The output of the example is next to it, in a directory that is ready. -/
theorem exists_output (h : Started root args cwd after) :
    ∃ above, Output (exampleOutput (args.sourcePath (dotted cwd))) above exampleDeclaration ∧
      Ready after.view above ∧
      Node.Nameable (exampleOutput (args.sourcePath (dotted cwd))) exampleDeclaration ∧
      spelled (exampleOutput (args.sourcePath (dotted cwd))) =
        .text exampleDeclaration :: spelled (args.sourcePath cwd) := by
  have hsource := h.source_example (h.fits_source hlong)
  have hname : IsName exampleDeclaration := hsource.isName h.sound_source
  have hnone : ∀ o ∈ (none : Option Path), o.Sound := by simp
  have hr := (find_eq_ok_iff.1 (h.find_document hlong)).1
  obtain ⟨above, -, habove, hpath⟩ := hsource.exists_above
  rw [← exampleDeclaration, hname.joinText_eq] at hpath
  obtain ⟨_, houtput, hplace⟩ := hsource.exists_output h.sound_source hnone
  obtain rfl : above = _ :=
    Option.some.inj ((habove.parent?_joinName hname).symm.trans (hpath ▸ houtput.parent))
  have hreach : after.view.reach [] above.steps =
      .directory (spelled (args.sourcePath cwd)) := by
    rw [habove.steps, examplePath_eq, Path.steps_joinName isName_example, List.dropLast_concat]
    exact h.reach_source (h.fits_source hlong)
  have hshort : Spot.isLongName exampleDeclaration = false ∧
      Name.has '\x00' exampleDeclaration = false ∧
      Name.size exampleDeclaration ≤ Name.size exampleName := by
    rw [exampleDeclaration_eq]
    decide
  have hrefusal : Node.refusal? (above.joinName exampleDeclaration) = none :=
    refusal?_beside (examplePath_eq args _ ▸ Path.pieces_joinName _ _) isName_example.step habove hr
      hname hshort.2.1 hshort.1 hshort.2.2
  refine ⟨above, houtput, ready_of_above habove hr hreach,
    ⟨(congrArg Node.refusal? hpath).trans hrefusal, hshort.1⟩, hplace.trans ?_⟩
  rw [outputBase, spelled_example, List.tail_cons, spelled_source]
  rfl

/-- A directory in its place keeps the output from being written. -/
theorem failure_of_taken (h : Started root args cwd after)
    (htaken : after.view (.text exampleDeclaration :: spelled (args.sourcePath cwd)) =
      some .directory) :
    (after.run (compile {} cwd)).1.failure? ≠ none := by
  obtain ⟨-, text, -, -, hrendering⟩ := h.exists_rendering hlong
  obtain ⟨above, houtput, hready, -, hplace⟩ := h.exists_output hlong
  have hbarred : Barred after.view (exampleOutput (args.sourcePath (dotted cwd))) above
      exampleDeclaration := .inr ⟨hready, .inr fun hfree => hfree.ne_directory (hplace ▸ htaken)⟩
  obtain ⟨t, hwrite⟩ := run_writeOutput_of_barred h.tree houtput hbarred text
  rw [h.run_compile (h.fits_source hlong), run_deliver_some hrendering hwrite]
  exact Option.some_ne_none _

end Delivered

end Started

/-- What the first compilation of a project leaves: the declarations of the example, next to it. -/
structure CompiledExample (before : Node) (source : Path) (outcome : Compilation.Outcome)
    (after : Node) : Prop where
  found : documents before source = [source.joinText exampleName]
  outcome : outcome = .compiled [⟨.ofText exampleName, .ok (.written (exampleOutput source))⟩]
  beside : (exampleOutput source).parent? = (source.joinText exampleName).parent? ∧
    (exampleOutput source).fileName? = some (.text "example.d.ts")
  free : before.view (spelled (exampleOutput source)) = none
  added : ∃ d text, Schema.Document.parse exampleText = .ok d ∧
    Emit.documentText { filterOptional := false } d = .ok text ∧
    after.view = Function.update before.view (spelled (exampleOutput source))
      (some (.file text.toUTF8))

theorem Started.compiledExample (h : Started root args cwd after)
    (hdeclaration : ¬ Passes (args.sourcePath cwd)
      (.text exampleDeclaration :: spelled (args.sourcePath cwd)))
    (hlong : isLongPath (args.examplePath (dotted cwd)) = false) :
    CompiledExample after (args.sourcePath (dotted cwd)) (after.run (compile {} cwd)).1
      (after.run (compile {} cwd)).2 := by
  obtain ⟨d, text, hparse, htext, hrendering⟩ := h.exists_rendering hlong
  obtain ⟨above, houtput, hready, hnameable, hplace⟩ := h.exists_output hlong
  have hfree : after.view (spelled (exampleOutput (args.sourcePath (dotted cwd)))) = none := by
    rw [hplace]
    exact h.view_beside_example (exampleDeclaration_eq ▸ by decide)
      (exampleDeclaration_eq ▸ by decide) hdeclaration
  obtain ⟨second, hwrite, hview⟩ := run_writeOutput_of_free h.tree houtput hready hnameable
    (fun _ he => nomatch hfree.symm.trans he) text
  have hmirrors : Mirrors (args.sourcePath (dotted cwd)) none (args.examplePath (dotted cwd))
      "example" :=
    (h.source_example (h.fits_source hlong)).mirrors h.sound_source (by simp)
  obtain ⟨_, hparent, hbeside⟩ := hmirrors.beside rfl
  rw [h.run_compile (h.fits_source hlong), run_deliver_some hrendering hwrite]
  refine ⟨h.documents_eq (h.fits_source hlong), rfl, ⟨hbeside.trans hparent.symm, ?_⟩,
    hfree, d, text, hparse, htext, hview⟩
  exact hmirrors.declaration.trans (congrArg (some ∘ Name.text) exampleDeclaration_eq)

end Started

end Init

end PermitTypes.Project
