import PermitTypes.Project.Console
import PermitTypes.Proofs.Files.Effects
import PermitTypes.Proofs.Project.Beginning
import PermitTypes.Proofs.Project.Config

namespace PermitTypes.Project

open Files
open Compilation (isName_config smallProject isTree_smallProject)
open PermitTypes.Path (IsName)
open View (Changes Adds Keeps)

namespace Init

def Arguments.sourcePath (args : Arguments) (cwd : Path) : Path := cwd.joinText args.sourceDir

def Arguments.examplePath (args : Arguments) (cwd : Path) : Path :=
  (args.sourcePath cwd).joinText exampleName

def configPath (cwd : Path) : Path := cwd.joinText Config.fileName

theorem isName_example : IsName exampleName := by decide

theorem configPath_eq (cwd : Path) : configPath cwd = cwd.joinName Config.fileName :=
  isName_config.joinText_eq cwd

theorem examplePath_eq (args : Arguments) (cwd : Path) :
    args.examplePath cwd = (args.sourcePath cwd).joinName exampleName :=
  isName_example.joinText_eq _

theorem toList_exampleText :
    exampleText.toList = ['\n'].intercalate (exampleLines.map String.toList) ++ ['\n'] := by
  rw [exampleText, Emit.joinLines, String.toList_append, String.toList_intercalate]
  rfl

theorem exists_rendering_example : ∃ d text, Schema.Document.parse exampleText = .ok d ∧
    Emit.documentText { filterOptional := false } d = .ok text := by
  have hread : (((Schema.Decode.document Schema.Decode.depthLimit).readAll
      (['\n'].intercalate (exampleLines.map String.toList) ++ ['\n'])).toOption.any fun d =>
        (Emit.documentText { filterOptional := false } d).isOk) = true := by decide +kernel
  rw [← toList_exampleText, Option.any_eq_true] at hread
  obtain ⟨d, hd, hok⟩ := hread
  have hparse : Schema.Document.parse exampleText = .ok d := by
    rw [Schema.Document.parse, Json.Reader.read]
    cases hr : (Schema.Decode.document Schema.Decode.depthLimit).readAll exampleText.toList with
    | error fault => rw [hr] at hd; cases hd
    | ok other => rw [hr] at hd; exact congrArg _ (Option.some.inj hd)
  cases htext : Emit.documentText { filterOptional := false } d with
  | error failure => rw [htext] at hok; cases hok
  | ok text => exact ⟨d, text, hparse, htext⟩

section Run

variable {root after : Node} {args : Arguments} {cwd p : Path}

theorem run_unlessThere (root : Node) (p : Path) (what : Created)
    (make : StateM Node (Except Trouble Unit)) :
    root.run (unlessThere p what make) =
      if (root.kindAt p).isOk then (.ok [], root)
      else ((root.run make).1.map fun _ => [what], (root.run make).2) := by
  rw [unlessThere, Node.run_bind, Node.run_isThere]
  cases (root.kindAt p).isOk with
  | true => rfl
  | false =>
      simp only [Bool.false_eq_true, if_false, Node.run_bind]
      cases (root.run make).1 <;> rfl

theorem does_unlessThere {change : View → View → Prop} [IsPreorder View change]
    (what : Created) {make : StateM Node (Except Trouble Unit)} (h : Does change make) :
    Does change (unlessThere p what make) := by
  apply (Does.isThere p).bind
  intro there
  cases there with
  | true => exact .pure _
  | false =>
      apply h.bind
      intro made
      cases made <;> exact .pure _

/-- The places of files that were not there before. -/
def New (v : View) (p : Path) (w : View) (place : Place) : Prop :=
  v place = none ∧ w.find p = .ok place

/-- A file that is written unless it is there. -/
theorem run_unlessThere_write (hroot : root.IsTree) (hp : p.Sound) (what : Created)
    (text : String) {result : Except Trouble (List Created)}
    (h : root.run (unlessThere p what (Disk.write p text)) = (result, after)) :
    after.IsTree ∧ Changes (New root.view p after.view) root.view after.view ∧
      (result.isOk = true → (after.kindAt p).isOk = true) := by
  rw [run_unlessThere, Node.run_write] at h
  split at h
  · next hthere =>
      cases h
      exact ⟨hroot, .refl _ _, fun _ => hthere⟩
  · next hthere =>
      cases hw : root.writeAt p text with
      | error t =>
          rw [hw] at h
          cases h
          exact ⟨hroot, .refl _ _, fun hok => by cases hok⟩
      | ok other =>
          rw [hw] at h
          cases h
          have hput := Node.put_of_writeAt hroot hp hw
          have hnone : root.view (spelled p) = none := by
            by_contra hn
            rw [Node.isOk_kindAt, hput.before hn] at hthere
            exact hthere rfl
          refine ⟨hput.tree, hput.changes.mono ?_, fun _ => ?_⟩
          · rintro place rfl
            exact ⟨hnone, hput.find⟩
          · rw [Node.isOk_kindAt]
            change (other.view.find p).isOk = true
            rw [hput.find]
            rfl

/-- A config is there, and may not be overwritten. -/
def Guarded (root : Node) (args : Arguments) (cwd : Path) : Prop :=
  (root.kindAt (configPath cwd)).isOk = true ∧ args.force = false

/-- Everything that initialising can do. -/
inductive Course (root : Node) (args : Arguments) (cwd : Path) : Outcome → Node → Prop
  | kept (guarded : Guarded root args cwd) : Course root args cwd .kept root
  | stopped {created : List Created} {t : Trouble} {after : Node}
      (free : ¬ Guarded root args cwd)
      (changes : Changes (New root.view (args.examplePath cwd) after.view) root.view after.view) :
      Course root args cwd (.stopped created t) after
  | finished {created : List Created} {middle after : Node} (free : ¬ Guarded root args cwd)
      (changes : Changes (New root.view (args.examplePath cwd) middle.view) root.view middle.view)
      (there : (middle.kindAt (args.examplePath cwd)).isOk = true)
      (put : Node.Put middle (configPath cwd) args.config.encode.prettyText after) :
      Course root args cwd (.finished created) after

theorem run_init_of_guarded (h : Guarded root args cwd) :
    root.run (init args cwd) = (.kept, root) := by
  obtain ⟨hthere, hforce⟩ := h
  rw [configPath] at hthere
  simp only [init, Node.run_bind, Node.run_isThere, hthere, hforce]
  rfl

theorem New.mono {u v w : View} (h : Keeps u v) {place : Place} (hp : New v p w place) :
    New u p w place :=
  ⟨by_contra fun hn => h.ne_none hn hp.1, hp.2⟩

theorem course_init (hroot : root.IsTree) (hcwd : cwd.Sound) (args : Arguments) :
    Course root args cwd (root.run (init args cwd)).1 (root.run (init args cwd)).2 := by
  by_cases hguarded : Guarded root args cwd
  · rw [run_init_of_guarded hguarded]
    exact .kept hguarded
  · have hfree : ((root.kindAt (cwd.joinText Config.fileName)).isOk && !args.force) = false := by
      simpa [Guarded, configPath] using hguarded
    have hsource : (args.sourcePath cwd).Sound := hcwd.joinText _
    obtain ⟨hfirst, hadds⟩ :=
      does_unlessThere (p := args.sourcePath cwd) .sourceDirectory (Grows.makeDirectories hsource)
        root hroot
    rcases hd : root.run (unlessThere (args.sourcePath cwd) .sourceDirectory
      (Disk.makeDirectories (args.sourcePath cwd))) with ⟨directory, first⟩
    rcases he : first.run (unlessThere (args.examplePath cwd) .example
      (Disk.write (args.examplePath cwd) exampleText)) with ⟨document, second⟩
    rw [hd] at hfirst hadds
    obtain ⟨hsecond, hnew, hthere⟩ :=
      run_unlessThere_write hfirst (hsource.joinText exampleName) .example exampleText he
    have hchanges : Changes (New root.view (args.examplePath cwd) second.view) root.view
        second.view := (hadds.changes _).trans (hnew.mono fun place hp => hp.mono hadds.keeps)
    rw [Arguments.sourcePath] at hd
    rw [Arguments.examplePath, Arguments.sourcePath] at he
    simp only [init, Node.run_bind, Node.run_isThere, hfree, Bool.false_eq_true, if_false, hd]
    cases directory with
    | error t => exact .stopped hguarded (hadds.changes _)
    | ok made =>
        simp only [Node.run_bind, he]
        cases document with
        | error t => exact .stopped hguarded hchanges
        | ok written =>
            simp only [Node.run_bind, Node.run_write]
            cases hw : second.writeAt (configPath cwd) args.config.encode.prettyText with
            | error t =>
                rw [configPath] at hw
                simp only [hw]
                exact .stopped hguarded hchanges
            | ok after =>
                have hput := Node.put_of_writeAt hsecond (hcwd.joinText Config.fileName) hw
                rw [configPath] at hw
                simp only [hw]
                exact .finished hguarded hchanges (hthere rfl) hput

/-- The places that may hold another text than before. -/
def Touched (v : View) (args : Arguments) (cwd : Path) (w : View) (place : Place) : Prop :=
  New v (args.examplePath cwd) w place ∨ w.find (configPath cwd) = .ok place

theorem Course.changes {outcome : Outcome} (h : Course root args cwd outcome after) :
    Changes (Touched root.view args cwd after.view) root.view after.view := by
  cases h with
  | kept _ => exact .refl _ _
  | stopped _ hnew => exact hnew.mono fun place hp => .inl hp
  | @finished _ middle _ _ hnew _ hput =>
      apply (hnew.mono ?_).trans (hput.changes.mono ?_)
      · rintro place ⟨hnone, hfind⟩
        exact .inl ⟨hnone, Node.find_of_keeps hput.changes.keeps hfind⟩
      · rintro place rfl
        exact .inr hput.find

/-- What initialising leaves of a tree, whether it comes to its end or not. -/
structure Spared (root : Node) (args : Arguments) (cwd : Path) (after : Node) : Prop where
  /-- Nothing is removed. -/
  kept : ∀ place n, root.at? place = some n → ∃ n', after.at? place = some n' ∧ n'.kind = n.kind
  /-- No file changes but the config. -/
  frame : ∀ place content, root.at? place = some (.file content) →
    (∀ spot, after.find (configPath cwd) = .ok spot → spot.place ≠ place) →
    after.at? place = some (.file content)
  /-- No file is new but the example and the config. -/
  fresh : ∀ place content, after.at? place = some (.file content) →
    (∃ content, root.at? place = some (.file content)) ∨
      ∃ p ∈ [args.examplePath cwd, configPath cwd], ∃ spot, after.find p = .ok spot ∧
        spot.place = place

theorem spared_of_changes
    (h : Changes (Touched root.view args cwd after.view) root.view after.view) :
    Spared root args cwd after where
  kept place n hn := Node.exists_at?_of_keeps h.keeps hn
  frame place content hfile hother := by
    rw [Node.at?_eq_file_iff] at hfile ⊢
    apply h.file_eq ?_ hfile
    rintro (⟨hnone, -⟩ | hfind)
    · rw [hnone] at hfile
      cases hfile
    · obtain ⟨spot, hspot, hplace⟩ := Node.exists_spot hfind
      exact hother spot hspot hplace
  fresh place content hfile := by
    rw [Node.at?_eq_file_iff] at hfile
    by_cases htouched : Touched root.view args cwd after.view place
    · right
      rcases htouched with ⟨-, hfind⟩ | hfind
      · exact ⟨_, List.mem_cons_self, Node.exists_spot hfind⟩
      · exact ⟨_, List.mem_cons_of_mem _ List.mem_cons_self, Node.exists_spot hfind⟩
    · exact .inl ⟨content, Node.at?_eq_file_iff.2 (h.file_of_after htouched hfile)⟩

/-- A project that has been initialised. -/
structure Initialised (after : Node) (args : Arguments) (cwd : String) : Prop where
  /-- The config is read as it was given. -/
  config : (after.run (loadConfig (.ofText cwd))).1 =
    .ok { sourceDir := args.sourceDir, outputDir := args.outputDir, filterOptional := false }
  /-- The source directory has the example as an entry. -/
  source : ∃ entries,
    after.at? (spelled (args.sourcePath (.ofText cwd))) = some (.directory entries) ∧
      .text exampleName ∈ Entries.names entries
  document : (after.kindAt (args.examplePath (.ofText cwd))).isOk = true
  /-- Its path leads to it. The empty path alone leads nowhere. -/
  found : after.kindAt (args.sourcePath (.ofText cwd)) = .ok .directory ∨
    cwd = "" ∧ args.sourceDir = ""

theorem loadConfig_of_parse {text : String} {config : Config}
    (hthere : (root.kindAt (configPath cwd)).isOk = true)
    (hread : root.readAt (configPath cwd) = .ok text.toUTF8)
    (hparse : Config.parse text = .ok config) : (root.run (loadConfig cwd)).1 = .ok config := by
  have htext := readText_eq_ok_iff.2 hread
  rw [configPath] at hthere htext
  simp only [loadConfig, Node.run_bind, Node.run_isThere, hthere, if_true, htext, hparse,
    Node.run_pure]

theorem exists_entry {place : Place} {name : Name} (h : root.view (name :: place) ≠ none) :
    ∃ entries, root.at? place = some (.directory entries) ∧ name ∈ Entries.names entries := by
  obtain ⟨e, he⟩ := Option.ne_none_iff_exists'.1 h
  obtain ⟨n, hn, -⟩ := Option.map_eq_some_iff.1 he
  rw [Node.at?_cons, Option.bind_eq_some_iff] at hn
  obtain ⟨parent, hparent, hchild⟩ := hn
  cases parent with
  | file content => cases hchild
  | special => cases hchild
  | directory entries =>
      exact ⟨entries, hparent, List.mem_map_of_mem (Entries.mem_of_lookup hchild)⟩

theorem initialised_of_put {middle : Node} {cwd : String}
    (hthere : (middle.kindAt (args.examplePath (.ofText cwd))).isOk = true)
    (hput : Node.Put middle (configPath (.ofText cwd)) args.config.encode.prettyText after) :
    Initialised after args cwd := by
  have hexample : after.view.find (args.examplePath (.ofText cwd)) =
      .ok (spelled (args.examplePath (.ofText cwd))) := by
    rw [Node.isOk_kindAt] at hthere
    exact Node.find_of_keeps hput.changes.keeps (find_of_isOk hthere)
  have hplace : spelled (args.examplePath (.ofText cwd)) =
      .text exampleName :: spelled (args.sourcePath (.ofText cwd)) :=
    spelled_joinText isName_example
  have hjoined := hexample
  rw [examplePath_eq] at hjoined
  constructor
  case config =>
    apply loadConfig_of_parse ?_ ?_ (Config.parse_prettyText args.config)
    · rw [Node.isOk_kindAt, hput.find]
      rfl
    · rw [Node.readAt_eq, hput.read]
  case source =>
    apply exists_entry
    rw [← hplace]
    exact after.view_ne_none_of_find hexample
  case document =>
    rw [Node.isOk_kindAt, hexample]
    rfl
  case found =>
    by_cases hempty : (args.sourcePath (.ofText cwd)).pieces = [.text ""]
    · obtain ⟨hcwd, hsource⟩ :=
        Path.eq_empty_of_joinText (Path.sound_ofText cwd).ne_nil hempty
      exact .inr ⟨Path.eq_empty_of_pieces_ofText hcwd, hsource⟩
    · left
      rw [Node.kindAt_eq_ok_iff]
      exact ⟨_, .directory, Node.find_of_joinName hjoined hempty, (walk_base_of_find hjoined).2,
        rfl⟩

theorem Course.initialised {cwd : String} {outcome : Outcome}
    (h : Course root args (.ofText cwd) outcome after) (hfree : ¬ Guarded root args (.ofText cwd))
    (palette : Text.Palette) (hs : (outcome.answer palette args).failure = none) :
    Initialised after args cwd := by
  cases h with
  | kept hguarded => exact absurd hguarded hfree
  | stopped _ _ => cases hs
  | finished _ _ hthere hput => exact initialised_of_put hthere hput

end Run

end Init

open Init

/-- Initialising removes nothing and changes no file but the config. A config that is guarded stays;
otherwise, if it succeeds, there is a project whose config is read as it was given. -/
theorem init_spares_and_initialises {root : Node} (hroot : root.IsTree) (args : Init.Arguments)
    (cwd : String) (palette : Text.Palette) :
    let run := root.run (init args (.ofText cwd))
    let succeeds := (run.1.answer palette args).failure = none
    Spared root args (.ofText cwd) run.2 ∧
      (Guarded root args (.ofText cwd) → succeeds ∧ run.2 = root) ∧
      (¬ Guarded root args (.ofText cwd) → succeeds → Initialised run.2 args cwd) := by
  intro run succeeds
  have hcourse : Course root args (.ofText cwd) run.1 run.2 :=
    course_init hroot (Path.sound_ofText cwd) args
  refine ⟨spared_of_changes hcourse.changes, fun hguarded => ?_,
    fun hfree => hcourse.initialised hfree palette⟩
  have hrun : run = (.kept, root) := run_init_of_guarded hguarded
  change (run.1.answer palette args).failure = none ∧ run.2 = root
  rw [hrun]
  exact ⟨rfl, rfl⟩

/-- The source directory leads through a new one, and the output directory is empty. -/
def windingArguments : Init.Arguments :=
  { sourceDir := "a\"b/../src", outputDir := some "", force := true }

theorem smallProject_initialised :
    smallProject.IsTree ∧
      let run := smallProject.run (init windingArguments (.ofText ""))
      ¬ Guarded smallProject windingArguments (.ofText "") ∧
        (run.1.answer ⟨false⟩ windingArguments).failure = none ∧
        Initialised run.2 windingArguments "" := by
  have hfree : ¬ Guarded smallProject windingArguments (.ofText "") := by
    rintro ⟨-, hforce⟩
    cases hforce
  have hsucceeds : ((smallProject.run (init windingArguments (.ofText ""))).1.answer ⟨false⟩
      windingArguments).failure = none :=
    Option.isNone_iff_eq_none.1 (by decide +kernel)
  obtain ⟨-, -, h⟩ := init_spares_and_initialises isTree_smallProject windingArguments "" ⟨false⟩
  exact ⟨isTree_smallProject, hfree, hsucceeds, h hfree hsucceeds⟩

end PermitTypes.Project
