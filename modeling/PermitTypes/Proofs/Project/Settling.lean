import PermitTypes.Proofs.Project.Delivery
import PermitTypes.Proofs.Project.Outputs
import PermitTypes.Proofs.Project.Rendering

namespace PermitTypes.Project.Compilation

open Files
open View (Changes)

/-- A place at which the name of a declaration stands. -/
def IsDeclaration (place : Place) : Prop :=
  ∃ stem rest, place = .text (stem ++ declarationSuffix) :: rest

theorem not_isDeclaration_document (stem : String) (rest : Place) :
    ¬ IsDeclaration (.text (stem ++ documentSuffix) :: rest) := by
  rintro ⟨other, rest', h⟩
  have hstem := stem?_append stem
  rw [Name.text.inj (List.cons.inj h).1, stem?_declaration] at hstem
  cases hstem

theorem not_isDeclaration_config (rest : Place) :
    ¬ IsDeclaration (.text Config.fileName :: rest) := by
  rintro ⟨stem, rest', h⟩
  exact declaration_ne_config stem (Name.text.inj (List.cons.inj h).1).symm

section Source

variable {root now : Node} {dir f : Path} {names : List Name} {stem : String}

/-- A document reads as before whatever declarations have been written. -/
theorem rendering_of_changes (h : Source root.view dir f names stem)
    (hc : Changes IsDeclaration root.view now.view) (options : Emit.Options) :
    rendering now options f = rendering root options f := by
  obtain ⟨content, hcontent⟩ := h.found.exists_content
  have hplace : ¬ IsDeclaration (spelled f) := h.spelled_eq ▸ not_isDeclaration_document _ _
  refine rendering_congr ?_
  rw [Node.readAt_eq, Node.readAt_eq]
  refine hc.keeps.read root.closed_view root.view_nil_ne_none
    (h.found.find_ne_missing root.closed_view) ?_
  rw [hcontent, hc.file_eq hplace hcontent]

theorem documents_of_changes (hroot : root.IsTree) (hnow : now.IsTree)
    (hc : Changes IsDeclaration root.view now.view)
    (hfind : root.view.find dir = .ok (spelled dir)) : documents now dir = documents root dir :=
  documents_eq hroot.wellFormed hnow.wellFormed hc.keeps hfind fun _ _ content hw =>
    ⟨content, hc.file_of_after (not_isDeclaration_document _ _) hw⟩

end Source

/-- A plan whose declarations go to files, below directories that texts name. -/
structure Plan.Files (plan : Plan) : Prop where
  toFiles : plan.toStdout = false
  source : plan.sourceDir.Sound
  output : ∀ o ∈ plan.outputDir, o.Sound

def Plan.output (plan : Plan) (f : Path) : Path := outputPath plan.sourceDir plan.outputDir f

theorem Plan.Files.target_eq {plan : Plan} (h : plan.Files) (f : Path) :
    plan.target f = some (plan.output f) :=
  if_neg (by rw [h.toFiles]; exact Bool.false_ne_true)

/-- What has become of a document: it failed as it had to, its output holds its declarations, or its
output can never be written. -/
inductive Settled (root : Node) (plan : Plan) (w : View) (f : Path) : Result → Prop
  | failed {fl : Failure} (rendered : rendering root plan.options f = .error fl) :
      Settled root plan w f ⟨relativeTo plan.sourceDir f, .error fl⟩
  | written {text name : String} {above : Path}
      (rendered : rendering root plan.options f = .ok text)
      (output : Output (plan.output f) above name)
      (delivered : Delivered w (plan.output f) above name text) :
      Settled root plan w f ⟨relativeTo plan.sourceDir f, .ok (.written (plan.output f))⟩
  | barred {text name : String} {above : Path} {t : Trouble}
      (rendered : rendering root plan.options f = .ok text)
      (output : Output (plan.output f) above name) (barred : Barred w (plan.output f) above name) :
      Settled root plan w f ⟨relativeTo plan.sourceDir f, .error (.files t)⟩

/-- A file that the results name as written stands at the place. -/
def WrittenAt (results : List Result) (place : Place) : Prop :=
  ∃ r ∈ results, ∃ p, r.outcome = .ok (.written p) ∧ place = spelled p

section Settled

variable {root now : Node} {plan : Plan} {v w : View} {f : Path} {r : Result}

theorem Settled.path (h : Settled root plan w f r) {p : Path}
    (hp : r.outcome = .ok (.written p)) : p = plan.output f := by
  cases h with
  | failed _ => cases hp
  | written _ _ _ => cases hp; rfl
  | barred _ _ _ => cases hp

/-- What is settled stays so while its own output is let alone. -/
theorem Settled.mono (h : Settled root plan now.view f r) {places : Place → Prop}
    (hc : Changes places now.view w) (hp : ¬ places (spelled (plan.output f))) :
    Settled root plan w f r := by
  cases h with
  | failed hr => exact .failed hr
  | written hr ho hd =>
      exact .written hr ho ⟨hd.ready.mono hc.keeps, hd.nameable, hc.file_eq hp hd.content⟩
  | barred hr ho hb => exact .barred hr ho (hb.mono hc.keeps)

theorem isDeclaration_output (hplan : plan.Files) {names : List Name} {stem : String}
    (h : Source v plan.sourceDir f names stem) : IsDeclaration (spelled (plan.output f)) := by
  obtain ⟨-, -, hplace⟩ := h.exists_output hplan.source hplan.output
  exact ⟨stem, _, hplace⟩

/-- One document. -/
theorem run_deliver (hplan : plan.Files) {names : List Name} {stem : String}
    (hf : Source root.view plan.sourceDir f names stem) (hnow : now.IsTree)
    (hc : Changes IsDeclaration root.view now.view) :
    ∃ outcome middle, now.run (deliver plan.options (plan.target f) f) = (outcome, middle) ∧
      middle.IsTree ∧
      Changes (WrittenAt [⟨relativeTo plan.sourceDir f, outcome⟩]) now.view middle.view ∧
      Settled root plan middle.view f ⟨relativeTo plan.sourceDir f, outcome⟩ ∧
      ((rendering root plan.options f).isOk = false → middle = now) := by
  have hrendering := rendering_of_changes hf hc plan.options
  cases hr : rendering root plan.options f with
  | error fl =>
      rw [hr] at hrendering
      exact ⟨_, _, run_deliver_of_error hrendering _, hnow, .refl _ _, .failed hr, fun _ => rfl⟩
  | ok text =>
      rw [hr] at hrendering
      obtain ⟨above, hout, -⟩ := hf.exists_output hplan.source hplan.output
      obtain ⟨result, middle, hrun, htree, hwritten⟩ := run_writeOutput hnow hout text
      have hdeliver : now.run (deliver plan.options (plan.target f) f) =
          (result.map fun _ => .written (plan.output f), middle) := by
        rw [hplan.target_eq]
        exact run_deliver_some hrendering hrun
      refine ⟨_, _, hdeliver, htree, ?_⟩
      cases hwritten with
      | written hput hdelivered =>
          refine ⟨hput.mono ?_, .written hr hout hdelivered, fun h => by cases h⟩
          rintro place rfl
          exact ⟨_, List.mem_cons_self, plan.output f, rfl, rfl⟩
      | barred hadds hbarred =>
          exact ⟨hadds.changes _, .barred hr hout hbarred, fun h => by cases h⟩

end Settled

/-- Documents of one plan as they are found in a tree. -/
structure Sources (root : Node) (plan : Plan) (documents : List Path) : Prop where
  source : ∀ f ∈ documents, ∃ names stem, Source root.view plan.sourceDir f names stem
  distinct : documents.Nodup

section Run

variable {root now : Node} {plan : Plan} {f : Path} {documents : List Path}

theorem Sources.tail (h : Sources root plan (f :: documents)) : Sources root plan documents :=
  ⟨fun g hg => h.source g (List.mem_cons_of_mem _ hg), (List.nodup_cons.1 h.distinct).2⟩

theorem exists_mem_zip_right {α β : Type} {as : List α} {bs : List β} (h : as.length = bs.length)
    {b : β} (hb : b ∈ bs) : ∃ a, (a, b) ∈ as.zip bs := by
  rw [← List.map_snd_zip h.ge, List.mem_map] at hb
  obtain ⟨⟨a, b⟩, hab, rfl⟩ := hb
  exact ⟨a, hab⟩

theorem writtenAt_output {w : View} {results : List Result}
    (h : List.Forall₂ (Settled root plan w) documents results) {place : Place}
    (hp : WrittenAt results place) : ∃ g ∈ documents, place = spelled (plan.output g) := by
  obtain ⟨r, hr, p, ho, rfl⟩ := hp
  obtain ⟨g, hg⟩ := exists_mem_zip_right h.length_eq hr
  exact ⟨g, (List.of_mem_zip hg).1, by rw [(List.forall₂_zip h hg).path ho]⟩

/-- The first of some documents has its output where none of the others has it. -/
theorem Sources.not_writtenAt (hplan : plan.Files) (h : Sources root plan (f :: documents))
    {w : View} {results : List Result}
    (hs : List.Forall₂ (Settled root plan w) documents results) :
    ¬ WrittenAt results (spelled (plan.output f)) := by
  intro hw
  obtain ⟨g, hg, he⟩ := writtenAt_output hs hw
  obtain ⟨_, _, hf⟩ := h.source f List.mem_cons_self
  obtain ⟨_, _, hg'⟩ := h.source g (List.mem_cons_of_mem _ hg)
  have heq := hf.eq_of_output root.closed_view hg' hplan.source hplan.output he
  exact (List.nodup_cons.1 h.distinct).1 (heq ▸ hg)

theorem changes_isDeclaration (hplan : plan.Files) (h : Sources root plan documents) {v w w' : View}
    {results : List Result} (hs : List.Forall₂ (Settled root plan w') documents results)
    (hc : Changes (WrittenAt results) v w) : Changes IsDeclaration v w := by
  refine hc.mono fun place hp => ?_
  obtain ⟨g, hg, rfl⟩ := writtenAt_output hs hp
  obtain ⟨_, _, hsource⟩ := h.source g hg
  exact isDeclaration_output hplan hsource

/-- All documents, by induction on them: what becomes of one is let alone by those after it, and
those that cannot be rendered might as well be left out. -/
theorem run_compileAll (hplan : plan.Files) (h : Sources root plan documents) (hnow : now.IsTree)
    (hc : Changes IsDeclaration root.view now.view) :
    ∃ results after, now.run (compileAll plan documents) = (results, after) ∧ after.IsTree ∧
      Changes (WrittenAt results) now.view after.view ∧
      List.Forall₂ (Settled root plan after.view) documents results ∧
      (now.run (compileAll plan
        (documents.filter fun f => (rendering root plan.options f).isOk))).2 = after := by
  induction documents generalizing now with
  | nil => exact ⟨[], now, rfl, hnow, .refl _ _, .nil, rfl⟩
  | cons f documents ih =>
      obtain ⟨names, stem, hf⟩ := h.source f List.mem_cons_self
      obtain ⟨outcome, middle, hrun, htree, hchanges, hsettled, hsame⟩ :=
        run_deliver hplan hf hnow hc
      have hone : Sources root plan [f] :=
        ⟨fun g hg => h.source g (List.mem_cons.2 (.inl (List.mem_singleton.1 hg))),
          List.nodup_singleton f⟩
      have hmiddle : Changes IsDeclaration root.view middle.view :=
        hc.trans (changes_isDeclaration hplan hone (.cons hsettled .nil) hchanges)
      obtain ⟨results, after, hrest, hafter, hchanges', hsettled', hfilter⟩ :=
        ih h.tail htree hmiddle
      refine ⟨⟨relativeTo plan.sourceDir f, outcome⟩ :: results, after, ?_, hafter, ?_, ?_, ?_⟩
      · simp only [run_compileAll_cons, hrun, hrest]
      · refine (hchanges.mono ?_).trans (hchanges'.mono ?_)
        · rintro place ⟨r, hr, hw⟩
          exact ⟨r, List.mem_cons.2 (.inl (List.mem_singleton.1 hr)), hw⟩
        · rintro place ⟨r, hr, hw⟩
          exact ⟨r, List.mem_cons_of_mem _ hr, hw⟩
      · exact .cons (hsettled.mono hchanges' (h.not_writtenAt hplan hsettled')) hsettled'
      · cases hr : (rendering root plan.options f).isOk with
        | true =>
            simp only [List.filter_cons, hr, if_true, run_compileAll_cons, hrun]
            exact hfilter
        | false =>
            simp only [List.filter_cons, hr, if_false, Bool.false_eq_true, ← hsame hr]
            exact hfilter

theorem Result.succeeded_mk (document : Path) (outcome : Except Failure Delivery) :
    Result.succeeded ⟨document, outcome⟩ = outcome.isOk := by
  cases outcome <;> rfl

/-- Which documents succeeded, and which failed. -/
def reports (results : List Result) : List (Path × Bool) :=
  results.map fun r => (r.document, r.succeeded)

/-- Documents that are settled stay as they are when they are compiled once more. -/
theorem run_compileAll_of_settled (hplan : plan.Files) (h : Sources root plan documents)
    (hnow : now.IsTree) (hc : Changes IsDeclaration root.view now.view) {results : List Result}
    (hs : List.Forall₂ (Settled root plan now.view) documents results) :
    ∃ others, now.run (compileAll plan documents) = (others, now) ∧
      reports others = reports results := by
  induction hs with
  | nil => exact ⟨[], rfl, rfl⟩
  | @cons f r documents results hf _ ih =>
      obtain ⟨others, hrest, hreports⟩ := ih h.tail
      obtain ⟨names, stem, hsource⟩ := h.source f List.mem_cons_self
      have hrendering := rendering_of_changes hsource hc plan.options
      have hdelivered : ∃ outcome,
          now.run (deliver plan.options (plan.target f) f) = (outcome, now) ∧
            outcome.isOk = r.succeeded ∧ r.document = relativeTo plan.sourceDir f := by
        cases hf with
        | failed hr =>
            rw [hr] at hrendering
            exact ⟨_, run_deliver_of_error hrendering _, rfl, rfl⟩
        | written hr hout hd =>
            rw [hr] at hrendering
            rw [hplan.target_eq]
            have hwrite := run_writeOutput_of_delivered hnow hout hd
            exact ⟨_, run_deliver_some hrendering hwrite, rfl, rfl⟩
        | barred hr hout hb =>
            rw [hr] at hrendering
            rw [hplan.target_eq]
            obtain ⟨t, ht⟩ := run_writeOutput_of_barred hnow hout hb _
            exact ⟨_, run_deliver_some hrendering ht, rfl, rfl⟩
      obtain ⟨outcome, hrun, hok, hdocument⟩ := hdelivered
      refine ⟨⟨relativeTo plan.sourceDir f, outcome⟩ :: others, ?_, ?_⟩
      · simp only [run_compileAll_cons, hrun, hrest]
      · rw [reports, List.map_cons, ← hdocument, Result.succeeded_mk, hok]
        exact congrArg _ hreports

end Run

end PermitTypes.Project.Compilation
