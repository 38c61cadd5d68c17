import PermitTypes.Proofs.Project.Beginning

namespace PermitTypes.Project

open Files
open View (Changes)

namespace Compilation

def Outcome.results : Outcome → List Result
  | refused _ => []
  | compiled results => results

/-- The documents reported as compiled. -/
def succeeding (documents : List Path) (results : List Result) : List Path :=
  ((documents.zip results).filter (·.2.succeeded)).map (·.1)

/-- The documents reported as failed. -/
def failing (documents : List Path) (results : List Result) : List Path :=
  ((documents.zip results).filter (!·.2.succeeded)).map (·.1)

/-- What a run of a plan leaves on disk, where it has found these documents and reports these
results. -/
structure Leaves (root : Node) (plan : Plan) (documents : List Path) (results : List Result)
    (after : Node) : Prop where
  /-- Nothing is removed. -/
  kept : ∀ place n, root.at? place = some n → ∃ n', after.at? place = some n' ∧ n'.kind = n.kind
  /-- Each document is reported once, as compiled or as failed. -/
  named : results.map (·.document) = documents.map (relativeTo plan.sourceDir)
  distinct : (documents.map (relativeTo plan.sourceDir)).Nodup
  parted : (succeeding documents results ++ failing documents results).Perm documents
  /-- What is reported as compiled has its declarations at its output path. -/
  outputs : ∀ f ∈ succeeding documents results, ∃ source d text,
    root.readAt f = .ok source.toUTF8 ∧ Schema.Document.parse source = .ok d ∧
      Emit.documentText plan.options d = .ok text ∧
      after.readAt (plan.output f) = .ok text.toUTF8
  /-- No other file changes. -/
  frame : ∀ place content, root.at? place = some (.file content) →
    (∀ f ∈ succeeding documents results, ∀ spot, after.find (plan.output f) = .ok spot →
      spot.place ≠ place) →
    after.at? place = some (.file content)
  inputs : ∀ name place content, (stem? name).isSome = true ∨ name = Config.fileName →
    root.at? (name :: place) = some (.file content) →
    after.at? (name :: place) = some (.file content)
  /-- No other file is new. -/
  fresh : ∀ place content, after.at? place = some (.file content) →
    (∃ content, root.at? place = some (.file content)) ∨
      ∃ f ∈ succeeding documents results, ∃ spot, after.find (plan.output f) = .ok spot ∧
        spot.place = place
  /-- Documents that cannot be loaded or rendered have no part in it. -/
  idle : (root.run (compileAll plan
    (documents.filter fun f => (rendering root plan.options f).isOk))).2 = after

section Results

variable {root after : Node} {plan : Plan} {documents : List Path} {results : List Result}
  {w : View}

theorem mem_succeeding {f : Path} :
    f ∈ succeeding documents results ↔
      ∃ r, (f, r) ∈ documents.zip results ∧ r.succeeded = true := by
  rw [succeeding, List.mem_map]
  constructor
  · rintro ⟨⟨f, r⟩, hr, rfl⟩
    exact ⟨r, List.mem_filter.1 hr⟩
  · rintro ⟨r, hr⟩
    exact ⟨(f, r), List.mem_filter.2 hr, rfl⟩

theorem perm_succeeding_failing (h : documents.length = results.length) :
    (succeeding documents results ++ failing documents results).Perm documents := by
  rw [succeeding, failing, ← List.map_append]
  have hperm := (List.filter_append_perm (·.2.succeeded) (documents.zip results)).map (·.1)
  rwa [List.map_fst_zip h.le] at hperm

theorem Settled.eq_written {f : Path} {r : Result} (h : Settled root plan w f r)
    (hr : r.succeeded = true) :
    r.outcome = .ok (.written (plan.output f)) ∧
      ∃ text, rendering root plan.options f = .ok text ∧
        w.find (plan.output f) = .ok (spelled (plan.output f)) ∧
        w.read (plan.output f) = .ok text.toUTF8 := by
  cases h with
  | failed _ => cases hr
  | @written text name above hrendered hout hd =>
      exact ⟨rfl, text, hrendered, Node.read_output hout hd.ready hd.nameable hd.content⟩
  | barred _ _ _ => cases hr

theorem exists_settled (h : List.Forall₂ (Settled root plan w) documents results) {f : Path}
    (hf : f ∈ succeeding documents results) :
    ∃ r ∈ results, Settled root plan w f r ∧ r.succeeded = true := by
  obtain ⟨r, hr, hok⟩ := mem_succeeding.1 hf
  exact ⟨r, (List.of_mem_zip hr).2, List.forall₂_zip h hr, hok⟩

/-- The places that have been written are those of the outputs. -/
theorem writtenAt_iff (h : List.Forall₂ (Settled root plan w) documents results) {place : Place} :
    WrittenAt results place ↔
      ∃ f ∈ succeeding documents results, spelled (plan.output f) = place := by
  constructor
  · rintro ⟨r, hr, p, hp, rfl⟩
    obtain ⟨f, hf⟩ := exists_mem_zip_right h.length_eq hr
    have hok : r.succeeded = true := by rw [Result.succeeded, hp]
    exact ⟨f, mem_succeeding.2 ⟨r, hf, hok⟩, by rw [(List.forall₂_zip h hf).path hp]⟩
  · rintro ⟨f, hf, rfl⟩
    obtain ⟨r, hr, hs, hok⟩ := exists_settled h hf
    exact ⟨r, hr, plan.output f, (hs.eq_written hok).1, rfl⟩

theorem Sources.distinct_relative (h : Sources root plan documents) :
    (documents.map (relativeTo plan.sourceDir)).Nodup := by
  refine h.distinct.map_on fun f hf g hg he => ?_
  obtain ⟨names, stem, hsf⟩ := h.source f hf
  obtain ⟨others, other, hsg⟩ := h.source g hg
  rw [hsf.relativeTo_eq, hsg.relativeTo_eq] at he
  have hsteps := congrArg Path.steps he
  rw [Path.steps_assemble hsf.found.proper, Path.steps_assemble hsg.found.proper] at hsteps
  rw [hsf.found.path, hsg.found.path, hsteps]

theorem map_document (h : List.Forall₂ (Settled root plan w) documents results) :
    results.map (·.document) = documents.map (relativeTo plan.sourceDir) := by
  induction h with
  | nil => rfl
  | cons hf _ ih =>
      rw [List.map_cons, List.map_cons, ih]
      cases hf <;> rfl

theorem leaves_of_settled (hplan : plan.Files) (hsources : Sources root plan documents)
    (hchanges : Changes (WrittenAt results) root.view after.view)
    (hs : List.Forall₂ (Settled root plan after.view) documents results)
    (hidle : (root.run (compileAll plan
      (documents.filter fun f => (rendering root plan.options f).isOk))).2 = after) :
    Leaves root plan documents results after where
  kept place n hn := Node.exists_at?_of_keeps hchanges.keeps hn
  named := map_document hs
  distinct := hsources.distinct_relative
  parted := perm_succeeding_failing hs.length_eq
  outputs f hf := by
    obtain ⟨r, -, hr, hok⟩ := exists_settled hs hf
    obtain ⟨-, text, hrendered, -, hread⟩ := hr.eq_written hok
    obtain ⟨source, d, hs, hd, ht⟩ := rendering_eq_ok_iff.1 hrendered
    exact ⟨source, d, text, hs, hd, ht, (Node.readAt_eq after _).trans hread⟩
  frame place content hfile hother := by
    refine Node.at?_eq_file_iff.2 (hchanges.file_eq (fun hw => ?_) (Node.at?_eq_file_iff.1 hfile))
    obtain ⟨f, hf, rfl⟩ := (writtenAt_iff hs).1 hw
    obtain ⟨r, -, hr, hok⟩ := exists_settled hs hf
    obtain ⟨-, text, -, hfind, -⟩ := hr.eq_written hok
    obtain ⟨spot, hspot, hplace⟩ := Node.exists_spot hfind
    exact hother f hf spot hspot hplace
  inputs name place content hname hfile := by
    have hdeclarations := changes_isDeclaration hplan hsources hs hchanges
    refine Node.at?_eq_file_iff.2 (hdeclarations.file_eq ?_ (Node.at?_eq_file_iff.1 hfile))
    rcases hname with hname | rfl
    · obtain ⟨stem, hstem⟩ := Option.isSome_iff_exists.1 hname
      rw [eq_of_stem? hstem]
      exact not_isDeclaration_document stem place
    · exact not_isDeclaration_config place
  fresh place content hfile := by
    by_cases hw : WrittenAt results place
    · obtain ⟨f, hf, rfl⟩ := (writtenAt_iff hs).1 hw
      obtain ⟨r, -, hr, hok⟩ := exists_settled hs hf
      obtain ⟨-, text, -, hfind, -⟩ := hr.eq_written hok
      obtain ⟨spot, hspot, hplace⟩ := Node.exists_spot hfind
      exact .inr ⟨f, hf, spot, hspot, hplace⟩
    · have hold := hchanges.file_of_after hw (Node.at?_eq_file_iff.1 hfile)
      exact .inl ⟨content, Node.at?_eq_file_iff.2 hold⟩
  idle := hidle

theorem failure?_compiled (results : List Result) :
    (Outcome.compiled results).failure? = none ↔ ∀ r ∈ results, r.succeeded = true := by
  rw [Outcome.failure?, failures]
  split
  · next h =>
      rw [List.length_eq_zero_iff, List.filter_eq_nil_iff] at h
      exact iff_of_true rfl fun r hr => by simpa using h r hr
  · next h =>
      refine iff_of_false (by simp) fun hall => h ?_
      rw [List.length_eq_zero_iff, List.filter_eq_nil_iff]
      exact fun r hr => by simp [hall r hr]

end Results

end Compilation

open Compilation

/-- What a run that writes files leaves on disk, and when it succeeds. -/
theorem compile_leaves {root : Node} (hroot : root.IsTree) (args : Arguments)
    (hfiles : args.toStdout = false) (cwd : String) :
    let project := project args (.ofText cwd)
    let run := root.run (compile args (.ofText cwd))
    (run.1.failure? = none ↔ ∃ config, Begins root args (.ofText cwd) config ∧
      ∀ r ∈ run.1.results, r.succeeded = true) ∧
    ((∀ config, ¬ Begins root args (.ofText cwd) config) → run.2 = root) ∧
    ∀ config, Begins root args (.ofText cwd) config →
      Leaves root (plan args project config) (documents root (config.sourcePath project))
        run.1.results run.2 := by
  intro project run
  by_cases hb : ∃ config, Begins root args (.ofText cwd) config
  · obtain ⟨config, hb⟩ := hb
    have hcwd := Path.sound_ofText cwd
    obtain ⟨results, after, hrun, -, hchanges, hsettled, hidle⟩ :=
      exists_run_compile hroot hcwd hb hfiles
    have hrun' : run = (.compiled results, after) := hrun
    rw [hrun']
    refine ⟨?_, fun hnot => absurd hb (hnot config), fun other hother => ?_⟩
    · rw [failure?_compiled]
      exact ⟨fun h => ⟨config, hb, h⟩, fun ⟨_, _, h⟩ => h⟩
    · have hsame : other = config := Except.ok.inj (hother.loaded.symm.trans hb.loaded)
      subst hsame
      exact leaves_of_settled (files_plan hfiles hcwd other) (sources_documents hroot _) hchanges
        hsettled hidle
  · obtain ⟨fl, hrun⟩ := run_compile_of_not_begins (not_exists.1 hb)
    have hrun' : run = (.refused fl, root) := hrun
    rw [hrun']
    refine ⟨iff_of_false (by simp [Outcome.failure?]) ?_, fun _ => rfl, fun config h => ?_⟩
    · rintro ⟨config, h, -⟩
      exact hb ⟨config, h⟩
    · exact absurd ⟨config, h⟩ hb

theorem smallProject_compiled :
    smallProject.IsTree ∧
      let args : Arguments := { outputDir := some "out" }
      let run := smallProject.run (compile args (.ofText ""))
      args.toStdout = false ∧ failing smallDocuments run.1.results = [brokenDocument] ∧
        Leaves smallProject (plan args ⟨["."]⟩ {}) smallDocuments run.1.results run.2 := by
  obtain ⟨-, -, hleaves⟩ :=
    compile_leaves isTree_smallProject { outputDir := some "out" } rfl ""
  have hsmall := hleaves {} (begins_smallProject (some "out") false {})
  rw [project, project_small, sourcePath_small, documents_smallProject] at hsmall
  refine ⟨isTree_smallProject, rfl, ?_, hsmall⟩
  rw [run_compile_smallProject]
  decide +kernel

end PermitTypes.Project
