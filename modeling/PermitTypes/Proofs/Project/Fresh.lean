import PermitTypes.Proofs.Project.Starting

namespace PermitTypes.Project

open Files Compilation Init
open PermitTypes.Path (IsName)

/-- A project that has been initialised in an empty directory compiles, if the way to its source
directory does not lead through the places of the example and of its output, and no path is too long
with a dot in it. -/
theorem fresh_project_compiles {root : Node} (hroot : root.IsTree) (cwd : String)
    (args : Init.Arguments) (palette : Text.Palette) (hout : args.outputDir = none)
    (hempty : root.at? (spelled (.ofText cwd)) = some .empty)
    (hinside : spelled (.ofText cwd) <:+ spelled (args.sourcePath (.ofText cwd)))
    (hexample : ¬ Passes (args.sourcePath (.ofText cwd))
      (.text "example.permit.json" :: spelled (args.sourcePath (.ofText cwd))))
    (hdeclaration : ¬ Passes (args.sourcePath (.ofText cwd))
      (.text "example.d.ts" :: spelled (args.sourcePath (.ofText cwd))))
    (hconfig : isLongPath (configPath ((Path.ofText cwd).joinText ".")) = false)
    (hlong : isLongPath (args.examplePath ((Path.ofText cwd).joinText ".")) = false)
    (hsucceeds : ((root.run (init args (.ofText cwd))).1.answer palette args).failure = none) :
    let first := root.run (init args (.ofText cwd))
    let second := first.2.run (compile {} (.ofText cwd))
    let source := args.sourcePath ((Path.ofText cwd).joinText ".")
    let document := spelled (args.examplePath (.ofText cwd))
    (root.view document = none ∧ first.2.view document = some (.file exampleText.toUTF8)) ∧
      first.2.view.find (source.joinText exampleName) = .ok document ∧
      second.1.failure? = none ∧ CompiledExample first.2 source second.1 second.2 := by
  intro first second source document
  have hplace : ¬ Passes (args.sourcePath (.ofText cwd)) document := by
    rw [show document = _ from spelled_example args _]
    exact hexample
  have hstarted : Started root args (.ofText cwd) first.2 :=
    started_of_init hroot
      ⟨Path.sound_ofText cwd, hempty, hinside, hplace, hout, hconfig⟩ hsucceeds
  have hcompiled : CompiledExample first.2 source second.1 second.2 :=
    hstarted.compiledExample (exampleDeclaration_eq ▸ hdeclaration) hlong
  refine ⟨⟨?_, hstarted.view_example⟩, hstarted.find_document hlong, ?_, hcompiled⟩
  · obtain ⟨above, habove⟩ := hinside
    rw [show document = _ from spelled_example args _, ← habove, ← List.cons_append]
    exact view_below_empty hempty (List.cons_ne_nil _ _)
  · rw [hcompiled.outcome]
    rfl

/-- The project directory with these entries. -/
def projectOf (entries : List (Name × Node)) : Node := .directory [("work", .directory entries)]

def emptyProject : Node := projectOf []

theorem isTree_emptyProject : emptyProject.IsTree := ⟨rfl, by decide +kernel⟩

/-- The way to the source directory leads through a new one that is not on its place. -/
theorem emptyProject_compiles :
    emptyProject.IsTree ∧
      let args : Init.Arguments := { sourceDir := "schemas/v1.d.ts/..//src/" }
      let first := emptyProject.run (init args (.ofText "/work"))
      let second := first.2.run (compile {} (.ofText "/work"))
      (first.1.answer ⟨false⟩ args).failure = none ∧
        first.2.view.find (.ofText "/work/./schemas/v1.d.ts/..//src/example.permit.json") =
          .ok [.text "example.permit.json", .text "src", .text "schemas", .text "work"] ∧
        second.1.failure? = none ∧
        CompiledExample first.2 (.ofText "/work/./schemas/v1.d.ts/..//src/") second.1 second.2 := by
  have hsource : (Init.Arguments.mk "schemas/v1.d.ts/..//src/" none false).sourcePath
      ((Path.ofText "/work").joinText ".") = .ofText "/work/./schemas/v1.d.ts/..//src/" := by
    decide +kernel
  have hsucceeds : ((emptyProject.run (init { sourceDir := "schemas/v1.d.ts/..//src/" }
      (.ofText "/work"))).1.answer ⟨false⟩ { sourceDir := "schemas/v1.d.ts/..//src/" }).failure =
      none :=
    Option.isNone_iff_eq_none.1 (by decide +kernel)
  have hexample : (Path.ofText "/work/./schemas/v1.d.ts/..//src/").joinText exampleName =
      .ofText "/work/./schemas/v1.d.ts/..//src/example.permit.json" := by decide +kernel
  obtain ⟨-, hfound, hcompiles, hcompiled⟩ := fresh_project_compiles isTree_emptyProject "/work"
    { sourceDir := "schemas/v1.d.ts/..//src/" } ⟨false⟩ rfl rfl (by decide +kernel)
    (by decide +kernel) (by decide +kernel) (by decide +kernel) (by decide +kernel) hsucceeds
  rw [hsource, hexample] at hfound
  exact ⟨isTree_emptyProject, hsucceeds, hfound.trans (by decide +kernel), hcompiles,
    hsource ▸ hcompiled⟩

section Exceptions

/-- A project initialised with a source directory. -/
def firstRun (root : Node) (cwd source : String) : Init.Outcome × Node :=
  root.run (init { sourceDir := source } (.ofText cwd))

/-- And then compiled. -/
def secondRun (root : Node) (cwd source : String) : Compilation.Outcome × Node :=
  (firstRun root cwd source).2.run (compile {} (.ofText cwd))

/-- Initialising succeeds in an empty directory that the source directory is below. -/
structure Starts (root : Node) (cwd source : String) : Prop where
  tree : root.IsTree
  empty : root.at? (spelled (.ofText cwd)) = some .empty
  inside : spelled (.ofText cwd) <:+ spelled ((Path.ofText cwd).joinText source)
  succeeds : ((firstRun root cwd source).1.answer ⟨false⟩ { sourceDir := source }).failure = none

theorem Starts.started {root : Node} {cwd source : String} (h : Starts root cwd source)
    (hfree : ¬ Passes ((Path.ofText cwd).joinText source)
      (spelled (((Path.ofText cwd).joinText source).joinText exampleName)))
    (hfits : isLongPath (configPath (dotted (.ofText cwd))) = false) :
    Started root { sourceDir := source } (.ofText cwd) (firstRun root cwd source).2 :=
  started_of_init h.tree ⟨Path.sound_ofText cwd, h.empty, h.inside, hfree, rfl, hfits⟩ h.succeeds

theorem ofText_work : Path.ofText "/work" = ⟨[.text "", .text "work"]⟩ := by decide

/-- An empty directory in the project directory. -/
def nestedProject : Node := projectOf [("src", .empty)]

theorem isTree_nestedProject : nestedProject.IsTree := ⟨rfl, by decide +kernel⟩

/-- The same with the example in it. -/
def exampleProject : Node :=
  projectOf [("src", .directory [(exampleName, .file exampleText.toUTF8)])]

section Winding

variable {dots : Nat} {names : List Name}

theorem refusal?_winding_zero (h : Node.refusal? (winding dots names) = none) :
    Node.refusal? (winding 0 names) = none := by
  obtain ⟨hzero, -, hlong⟩ := Node.refusal?_eq_none_iff.1 h
  refine Node.refusal?_eq_none_iff.2 ⟨Node.hasZero_eq_false hzero fun x hx => .inl ?_, ?_, ?_⟩
  · simp only [winding, List.replicate_zero, List.nil_append, List.mem_cons,
      List.mem_append] at hx ⊢
    tauto
  · simp [winding]
  · rw [isLongPath, decide_eq_false_iff_not, size_winding] at hlong ⊢
    omega

/-- The dots make no difference to what is found. -/
theorem kindAt_winding (h : Node.refusal? (winding dots names) = none)
    (entries : List (Name × Node)) :
    (projectOf entries).kindAt (winding dots names) =
      (projectOf entries).kindAt (winding 0 names) := by
  rw [Node.kindAt, Node.kindAt, Node.find, Node.find, h, refusal?_winding_zero h, winding, winding,
    projectOf]
  dsimp only
  rw [walk_winding, walk_winding]

/-- Nor do they to where something is made. -/
theorem target_winding (h : Node.refusal? (winding dots names) = none) {front : List Name}
    {last : Name} (hnames : .text "src" :: names = front ++ [last])
    (hlast : Path.isIdle last = false) (entries : List (Name × Node)) :
    (projectOf entries).target (winding dots names) =
      (projectOf entries).target (winding 0 names) := by
  have hpieces : ∀ dots, (winding dots names).pieces =
      (.text "" :: .text "work" :: (List.replicate dots (.text ".") ++ front)) ++ [last] := by
    intro dots
    rw [winding, hnames]
    simp
  rw [Node.target_of_walk (hpieces dots) hlast h,
    Node.target_of_walk (hpieces 0) hlast (refusal?_winding_zero h), projectOf, walk_winding,
    walk_winding]

theorem writeAt_winding {name : Name} (hname : Path.isIdle name = false)
    (h : Node.refusal? (winding dots [name]) = none) (entries : List (Name × Node))
    (text : String) :
    (projectOf entries).writeAt (winding dots [name]) text =
      (projectOf entries).writeAt (winding 0 [name]) text := by
  have hnames : .text "src" :: [name] = [.text "src"] ++ [name] := rfl
  rw [Node.writeAt, Node.writeAt, target_winding h hnames hname]

theorem isLongPath_winding_name (dots : Nat) (name : Name) :
    isLongPath (winding dots [name]) = decide (4085 < 2 * dots + name.size) := by
  have hlast : Path.span [name] = name.size + 1 := rfl
  rw [isLongPath, longestPath, size_winding, hlast, decide_eq_decide]
  omega

theorem refusal?_winding_name {name : Name} (hzero : name.has '\x00' = false)
    (hsize : name.size ≤ 19) (h : dots ≤ 2033) :
    Node.refusal? (winding dots [name]) = none := by
  refine refusal?_winding (List.forall_mem_singleton.2 hzero) ?_
  rw [isLongPath_winding_name, decide_eq_false_iff_not]
  omega

theorem joinText_winding {name : String} (h : IsName name) (dots : Nat) :
    (winding dots []).joinText name = winding dots [.text name] := by
  rw [h.joinText_eq, joinName_winding]

theorem refusal?_winding_source (h : dots ≤ 2033) : Node.refusal? (winding dots []) = none :=
  refusal?_winding (fun _ hn => absurd hn List.not_mem_nil) (isLongPath_winding (by omega))

theorem refusal?_winding_config (h : dots ≤ 2033) :
    Node.refusal? (winding dots [Config.fileName]) = none :=
  refusal?_winding_name (by decide) (by decide) h

theorem put_example_winding (h : dots ≤ 2033) :
    (nestedProject.kindAt (winding dots [exampleName])).isOk = false ∧
      nestedProject.writeAt (winding dots [exampleName]) exampleText = .ok exampleProject := by
  have hrefusal : Node.refusal? (winding dots [exampleName]) = none :=
    refusal?_winding_name (by decide) (by decide) h
  rw [nestedProject, kindAt_winding hrefusal, writeAt_winding (by decide) hrefusal]
  exact ⟨rfl, rfl⟩

end Winding

section Source

theorem steps_winding (dots : Nat) :
    (winding dots []).steps = [.text "work", .text "src"] := by
  have hdots : Path.stepsOf (List.replicate dots (.text ".")) = [] :=
    Path.stepsOf_eq_nil fun x hx => by rw [List.eq_of_mem_replicate hx]; rfl
  have hpieces : (winding dots []).pieces =
      [.text "", .text "work"] ++ List.replicate dots (.text ".") ++ [.text "src"] := rfl
  rw [Path.steps, hpieces, Path.stepsOf_append, Path.stepsOf_append, hdots]
  decide

theorem spelled_winding (dots : Nat) :
    spelled (winding dots []) = [.text "src", .text "work"] := by
  rw [spelled, steps_winding]
  rfl

def dotsThenSource (dots : Nat) : List Name := List.replicate dots (.text ".") ++ [.text "src"]

/-- A source directory whose path has as many dots in it as given. -/
def dottedSource (dots : Nat) : String := (Path.mk (dotsThenSource dots)).text

theorem ofText_dottedSource (dots : Nat) :
    Path.ofText (dottedSource dots) = ⟨dotsThenSource dots⟩ := by
  have hpieces : ∀ piece ∈ dotsThenSource dots, piece = .text "." ∨ piece = .text "src" := by
    intro piece hp
    rw [dotsThenSource, List.mem_append, List.mem_replicate, List.mem_singleton] at hp
    exact hp.imp_left And.right
  apply Path.Sound.ofText_text
  · refine ⟨List.append_ne_nil_of_right_ne_nil _ (List.cons_ne_nil _ _), fun piece hp => ?_⟩
    rcases hpieces piece hp with rfl | rfl <;> decide
  · intro piece hp
    rcases hpieces piece hp with rfl | rfl <;> rfl

theorem pieces_joinText_dottedSource (p : Path) (dots : Nat) :
    (p.joinText (dottedSource dots)).pieces = p.base ++ dotsThenSource dots := by
  have hrelative : (Path.mk (dotsThenSource dots)).isAbsolute = false := by
    cases dots <;> rfl
  rw [Path.joinText, ofText_dottedSource, Path.pieces_join hrelative]

theorem joinText_dottedSource (dots : Nat) :
    (Path.ofText "/work").joinText (dottedSource dots) = winding dots [] := by
  rw [Path.mk.injEq, pieces_joinText_dottedSource, ofText_work]
  rfl

theorem joinText_dot_dottedSource (dots : Nat) :
    ((Path.ofText "/work").joinText ".").joinText (dottedSource dots) = winding (dots + 1) [] := by
  have hdot : (Path.ofText "/work").joinText "." = ⟨[.text "", .text "work", .text "."]⟩ := by
    decide
  rw [Path.mk.injEq, pieces_joinText_dottedSource, hdot]
  rfl

variable {dots : Nat}

theorem run_makeDirectories_winding (h : dots ≤ 2033) :
    emptyProject.run (Disk.makeDirectories (winding dots [])) = (.ok (), nestedProject) := by
  have hmake : emptyProject.makeDirectoryAt (winding dots []) = .ok nestedProject := by
    rw [Node.makeDirectoryAt, emptyProject,
      target_winding (refusal?_winding_source h) (List.nil_append _).symm (by decide)]
    rfl
  rw [Disk.makeDirectories, if_neg (by exact Bool.false_ne_true)]
  exact Node.run_makeDirectoriesWithin_of_settled (Node.run_ensureDirectory_of_ok hmake) (by simp) _

/-- Initialising does not mind the dots until the path of the example is too long. -/
theorem starts_winding (h : dots ≤ 2033) : Starts emptyProject "/work" (dottedSource dots) := by
  have hsource := joinText_dottedSource dots
  have hexample : (winding dots []).joinText exampleName = winding dots [.text exampleName] :=
    joinText_winding isName_example dots
  have hconfig : (emptyProject.kindAt ((Path.ofText "/work").joinText Config.fileName)).isOk =
      false := by decide
  have hnothing : (emptyProject.kindAt (winding dots [])).isOk = false := by
    rw [emptyProject, kindAt_winding (refusal?_winding_source h)]
    rfl
  obtain ⟨hnone, hwrite⟩ := put_example_winding h
  obtain ⟨after, hput⟩ : ∃ after,
      exampleProject.writeAt ((Path.ofText "/work").joinText Config.fileName)
        (Init.Arguments.config { sourceDir := dottedSource dots }).encode.prettyText =
          .ok after := by
    have hpath : (Path.ofText "/work").joinText Config.fileName =
        ⟨[.text "", .text "work", .text Config.fileName]⟩ := by decide
    rw [hpath]
    exact ⟨_, rfl⟩
  refine ⟨isTree_emptyProject, rfl, ?_, ?_⟩
  · rw [hsource, spelled_winding, ofText_work]
    decide
  · simp only [firstRun, init, Node.run_bind, Node.run_isThere, hconfig, Bool.false_and,
      Bool.false_eq_true, if_false, hsource, run_unlessThere, hnothing,
      run_makeDirectories_winding h, Except.map, hexample, hnone, Node.run_write, Node.changed,
      hwrite, hput]
    rfl

theorem not_passes_winding (dots : Nat) :
    ¬ Passes (winding dots []) (.text exampleName :: spelled (winding dots [])) := by
  rw [Passes, steps_winding, spelled_winding]
  rintro ⟨front, hfront, hplace⟩
  have hfree : ∀ front ∈ [Name.text "work", Name.text "src"].inits,
      View.settle [] front ≠ [.text exampleName, .text "src", .text "work"] := by decide
  exact hfree front ((List.mem_inits _ _).2 hfront) hplace

/-- As many dots as initialising can do with are one too many for compiling. -/
theorem secondRun_winding_fails (h : dots ≤ 2033) (hlast : 2033 ≤ dots) :
    (secondRun emptyProject "/work" (dottedSource dots)).1.failure? ≠ none := by
  have hdotted : (Init.Arguments.mk (dottedSource dots) none false).sourcePath
      (dotted (.ofText "/work")) = winding (dots + 1) [] := joinText_dot_dottedSource dots
  have hfree : ¬ Passes ((Path.ofText "/work").joinText (dottedSource dots))
      (spelled (((Path.ofText "/work").joinText (dottedSource dots)).joinText exampleName)) := by
    rw [spelled_joinText isName_example, joinText_dottedSource]
    exact not_passes_winding dots
  have hfits : isLongPath ((Init.Arguments.mk (dottedSource dots) none false).sourcePath
      (dotted (.ofText "/work"))) = false := by
    rw [hdotted]
    exact isLongPath_winding (by omega)
  have hlong : isLongPath ((Init.Arguments.mk (dottedSource dots) none false).examplePath
      (dotted (.ofText "/work"))) = true := by
    have hsize : Name.size exampleName = 19 := by decide
    rw [Init.Arguments.examplePath, hdotted, joinText_winding isName_example,
      isLongPath_winding_name, decide_eq_true_eq, hsize]
    omega
  exact ((starts_winding h).started hfree (by decide)).failure_of_long hfits hlong

end Source

section Directory

/-- The path of the empty directory with as many dots in it as given. -/
def dottedDirectory (dots : Nat) : String := (winding dots []).text

theorem ofText_dottedDirectory (dots : Nat) :
    Path.ofText (dottedDirectory dots) = winding dots [] := by
  have hpieces : ∀ piece ∈ (winding dots []).pieces,
      piece = .text "" ∨ piece = .text "work" ∨ piece = .text "." ∨ piece = .text "src" := by
    intro piece hp
    simp only [winding, List.mem_cons, List.mem_append, List.mem_replicate, List.not_mem_nil,
      or_false] at hp
    exact hp.imp_right (Or.imp_right (Or.imp_left And.right))
  apply Path.Sound.ofText_text
  · refine ⟨List.cons_ne_nil _ _, fun piece hp => ?_⟩
    rcases hpieces piece hp with rfl | rfl | rfl | rfl <;> decide
  · intro piece hp
    rcases hpieces piece hp with rfl | rfl | rfl | rfl <;> rfl

theorem joinText_dot_winding {name : String} (h : IsName name) (dots : Nat) :
    ((winding dots []).joinText ".").joinText name = winding dots [".", .text name] := by
  rw [h.joinText_eq, Path.mk.injEq, Path.pieces_joinName, base_joinText_dot, base_winding]
  simp [winding]

/-- What initialising leaves there, where it has been told the place of the directory. -/
def nestedAfter : Node :=
  projectOf [("src", .directory [(exampleName, .file exampleText.toUTF8),
    (Config.fileName,
      .file (Init.Arguments.config { sourceDir := "/work/src" }).encode.prettyText.toUTF8)])]

variable {dots : Nat}

theorem joinText_nested (p : Path) : p.joinText "/work/src" = winding 0 [] := by
  have hpath : Path.ofText "/work/src" = winding 0 [] := by decide
  rw [Path.joinText, hpath, Path.join]
  rfl

theorem firstRun_nested (h : dots ≤ 2033) :
    firstRun nestedProject (dottedDirectory dots) "/work/src" =
      (.finished [.example, .config], nestedAfter) := by
  have hconfig : (winding dots []).joinText Config.fileName =
      winding dots [.text Config.fileName] := joinText_winding isName_config dots
  have hsource : (winding dots []).joinText "/work/src" = winding 0 [] := joinText_nested _
  have hexample : (winding 0 []).joinText exampleName = winding 0 [.text exampleName] :=
    joinText_winding isName_example 0
  have hnone : (nestedProject.kindAt (winding dots [Config.fileName])).isOk = false := by
    rw [nestedProject, kindAt_winding (refusal?_winding_config h)]
    rfl
  have hthere : (nestedProject.kindAt (winding 0 [])).isOk = true := rfl
  obtain ⟨hnothing, hwrite⟩ := put_example_winding (Nat.zero_le 2033)
  have hput : exampleProject.writeAt (winding dots [Config.fileName])
      (Init.Arguments.config { sourceDir := "/work/src" }).encode.prettyText =
        .ok nestedAfter := by
    rw [exampleProject, writeAt_winding (by decide) (refusal?_winding_config h)]
    rfl
  simp only [firstRun, init, ofText_dottedDirectory, Node.run_bind, Node.run_isThere, hconfig,
    hnone, Bool.false_and, Bool.false_eq_true, if_false, hsource, run_unlessThere, hthere, if_true,
    hexample, hnothing, Except.map, Node.run_write, Node.changed, hwrite, hput]
  rfl

theorem starts_nested (h : dots ≤ 2033) :
    Starts nestedProject (dottedDirectory dots) "/work/src" := by
  refine ⟨isTree_nestedProject, ?_, ?_, ?_⟩
  · rw [ofText_dottedDirectory, spelled_winding]
    rfl
  · rw [ofText_dottedDirectory, joinText_nested, spelled_winding, spelled_winding]
  · rw [firstRun_nested h]
    rfl

/-- With a dot more the config is not there to be read, and the source directory it names is
another one. -/
theorem secondRun_nested_fails (h : dots ≤ 2033) (hlast : 2033 ≤ dots) :
    (secondRun nestedProject (dottedDirectory dots) "/work/src").1.failure? ≠ none := by
  have hconfig : configPath (dotted (.ofText (dottedDirectory dots))) =
      winding dots [".", Config.fileName] := by
    rw [ofText_dottedDirectory]
    exact joinText_dot_winding isName_config dots
  have hsource : Config.sourcePath {} (dotted (.ofText (dottedDirectory dots))) =
      winding dots [".", "src"] := by
    rw [ofText_dottedDirectory]
    exact joinText_dot_winding isName_defaultSource dots
  have hunseen : (nestedAfter.kindAt (configPath (dotted (.ofText (dottedDirectory dots))))).isOk =
      false := by
    have hsize : Path.span [".", Config.fileName] = 21 := by decide
    have hlong : isLongPath (winding dots [".", Config.fileName]) = true := by
      rw [isLongPath, decide_eq_true_eq, longestPath, size_winding, hsize]
      omega
    obtain ⟨t, hrefusal⟩ := Node.exists_refusal_of_isLongPath hlong
    rw [hconfig, Node.isOk_kindAt, View.find, hrefusal]
    rfl
  have hnothing : (nestedAfter.kindAt (winding dots [".", "src"])).isOk = false := by
    have hsize : Path.span [".", "src"] = 6 := by decide
    have hrefusal : Node.refusal? (winding dots [".", "src"]) = none := by
      refine refusal?_winding (by decide) ?_
      rw [isLongPath, decide_eq_false_iff_not, longestPath, size_winding, hsize]
      omega
    rw [nestedAfter, kindAt_winding hrefusal]
    rfl
  have hbegins : ∀ config, ¬ Begins nestedAfter {} (.ofText (dottedDirectory dots)) config := by
    rintro config ⟨hloaded, hthere⟩
    rw [loadConfig_of_missing hunseen] at hloaded
    cases hloaded
    rw [hsource, Node.run_isThere, hnothing] at hthere
    cases hthere
  obtain ⟨fl, hrun⟩ := run_compile_of_not_begins hbegins
  rw [secondRun, firstRun_nested h, hrun]
  exact Option.some_ne_none _

end Directory

/-- Initialising can succeed in an empty directory without a document to be found, or with one that
cannot be compiled: where the way to the source directory leads through the place of the example, or
of its output, or where the path of the example is too long with a dot in it, or that of the
config. -/
theorem fresh_projects_fail_to_compile :
    (∀ source ∈ ["example.permit.json/..", "example.d.ts/..", dottedSource 2033],
        Starts emptyProject "/work" source) ∧
      Starts nestedProject (dottedDirectory 2033) "/work/src" ∧
      documents (firstRun emptyProject "/work" "example.permit.json/..").2
        (.ofText "/work/./example.permit.json/..") = [] ∧
      (∀ source ∈ ["example.d.ts/..", dottedSource 2033],
        (secondRun emptyProject "/work" source).1.failure? ≠ none) ∧
      (secondRun nestedProject (dottedDirectory 2033) "/work/src").1.failure? ≠ none := by
  have hdocument : Starts emptyProject "/work" "example.permit.json/.." :=
    ⟨isTree_emptyProject, rfl, by decide +kernel, Option.isNone_iff_eq_none.1 (by decide +kernel)⟩
  have hdeclaration : Starts emptyProject "/work" "example.d.ts/.." :=
    ⟨isTree_emptyProject, rfl, by decide +kernel, Option.isNone_iff_eq_none.1 (by decide +kernel)⟩
  refine ⟨?_, starts_nested le_rfl, ?_, ?_, secondRun_nested_fails le_rfl le_rfl⟩
  · simp only [List.forall_mem_cons]
    exact ⟨hdocument, hdeclaration, starts_winding le_rfl, List.forall_mem_nil _⟩
  · have hfiles : ((firstRun emptyProject "/work" "example.permit.json/..").2.filesAt
        (.ofText "/work/./example.permit.json/..")).filter isDocument = [] := by decide +kernel
    refine List.eq_nil_iff_forall_not_mem.2 fun f hf => ?_
    rw [mem_documents_iff, hfiles] at hf
    cases hf
  · simp only [List.forall_mem_cons]
    refine ⟨?_, secondRun_winding_fails le_rfl le_rfl, List.forall_mem_nil _⟩
    have hstarted := hdeclaration.started (by decide +kernel) (by decide +kernel)
    exact hstarted.failure_of_taken (by decide +kernel) (by decide +kernel)

end Exceptions

end PermitTypes.Project
