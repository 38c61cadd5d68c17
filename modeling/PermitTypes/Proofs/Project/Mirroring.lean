import PermitTypes.Proofs.Path.Last
import PermitTypes.Proofs.Project.Traversal

namespace PermitTypes.Project

open Files
open PermitTypes.Path (IsName)

theorem isDocument_eq_false {stem : String} {p : Path}
    (h : p.fileName? = some (.text (stem ++ declarationSuffix))) : isDocument p = false := by
  rw [isDocument, h, Option.bind_some, Name.text?, Option.any_some, isDocumentName,
    stem?_declaration]

/-- The output of a document keeps its stem and its way from the source directory. -/
structure Mirrors (dir : Path) (out : Option Path) (f : Path) (stem : String) : Prop where
  document : f.fileName? = some (.text (stem ++ documentSuffix))
  declaration : (outputPath dir out f).fileName? = some (.text (stem ++ declarationSuffix))
  apart : isDocument (outputPath dir out f) = false ∧
    (outputPath dir out f).fileName? ≠ some (.text Config.fileName)
  stripped : f.stripBase dir = some (relativeTo dir f)
  relative : f.components = dir.components ++ (relativeTo dir f).components
  descending : ∀ c ∈ (relativeTo dir f).components, ∃ name, c = .name name
  beside : out = none → ∃ above, f.parent? = some above ∧
    (outputPath dir out f).parent? = some above
  inside : ∀ o ∈ out, (outputPath dir out f).components =
    o.components ++ ((relativeTo dir f).components.dropLast ++
      [.name (.text (stem ++ declarationSuffix))])

section Mirrors

variable {v : View} {dir f : Path} {names : List Name} {stem : String} {out : Option Path}

theorem Source.components_relativeTo (h : Source v dir f names stem) :
    (relativeTo dir f).components = names.map .name := by
  rw [h.relativeTo_eq, Path.components_assemble h.found.proper]

theorem Source.components_output (h : Source v dir f names stem)
    (hname : IsName (.text (stem ++ declarationSuffix))) (o : Path) :
    (outputPath dir (some o) f).components =
      o.components ++ ((relativeTo dir f).components.dropLast ++
        [.name (.text (stem ++ declarationSuffix))]) := by
  rw [h.outputPath_some, hname.joinText_eq,
    Path.joinName_join_assemble h.proper_dropLast hname,
    Path.components_below o (by simpa [or_imp, forall_and] using ⟨h.proper_dropLast, hname⟩),
    h.components_relativeTo, List.map_append, List.map_dropLast, List.map_singleton]

theorem Source.mirrors (h : Source v dir f names stem) (hdir : dir.Sound)
    (hout : ∀ o ∈ out, o.Sound) : Mirrors dir out f stem := by
  have hname := h.isName hdir
  have hdeclaration :
      (outputPath dir out f).fileName? = some (.text (stem ++ declarationSuffix)) := by
    obtain ⟨y, hpath, -⟩ := h.exists_base hdir hout
    rw [hpath, Path.fileName?_joinName hname]
  constructor
  case document => exact h.named
  case declaration => exact hdeclaration
  case apart =>
    refine ⟨isDocument_eq_false hdeclaration, ?_⟩
    rw [hdeclaration]
    exact fun he => declaration_ne_config stem (Name.text.inj (Option.some.inj he))
  case stripped => rw [h.relativeTo_eq, h.found.path, Path.stripBase_below dir h.found.proper]
  case relative =>
    rw [h.components_relativeTo, h.found.path, Path.components_below dir h.found.proper]
  case descending =>
    rw [h.components_relativeTo]
    intro c hc
    obtain ⟨name, -, rfl⟩ := List.mem_map.1 hc
    exact ⟨name, rfl⟩
  case beside =>
    rintro rfl
    obtain ⟨above, hparent, habove, hpath⟩ := h.exists_above
    exact ⟨above, hparent, by rw [hpath, hname.joinText_eq, habove.parent?_joinName hname]⟩
  case inside =>
    rintro o rfl
    exact h.components_output hname o

end Mirrors

/-- The outputs mirror the tree of the documents, and no two of them are at one path. -/
theorem outputs_mirror_documents {root : Node} (h : root.WellFormed) (dir : String)
    (out : Option String) {f g : Path} (hf : f ∈ documents root (.ofText dir))
    (hg : g ∈ documents root (.ofText dir)) :
    (∃ stem, stem ≠ "" ∧ Mirrors (.ofText dir) (out.map .ofText) f stem) ∧
      (f.components ≠ g.components →
        (outputPath (.ofText dir) (out.map .ofText) f).components ≠
          (outputPath (.ofText dir) (out.map .ofText) g).components) := by
  have hdir := Path.sound_ofText dir
  have hout : ∀ o ∈ out.map Path.ofText, o.Sound := by
    intro o ho
    obtain ⟨text, -, rfl⟩ := Option.map_eq_some_iff.1 ho
    exact Path.sound_ofText text
  obtain ⟨names, stem, hs⟩ := (mem_documents h).1 hf
  obtain ⟨others, other, ht⟩ := (mem_documents h).1 hg
  refine ⟨⟨stem, hs.nonempty, hs.mirrors hdir hout⟩, fun hne heq => hne ?_⟩
  have hsteps := congrArg (List.filterMap Path.Component.step?) heq
  rw [Path.filterMap_components, Path.filterMap_components] at hsteps
  have hplace : spelled (outputPath (.ofText dir) (out.map .ofText) f) =
      spelled (outputPath (.ofText dir) (out.map .ofText) g) :=
    congrArg (View.settle []) hsteps
  rw [hs.eq_of_output (Node.closed_view root) ht hdir hout hplace]

/-- The paths of the shelves have idle pieces in them, and that of the output directory has a step
up. -/
theorem shelf_outputs_mirror_documents :
    shelf.WellFormed ∧
      .ofText "/src//./orders/b.permit.json" ∈ documents shelf (.ofText "/src//./") ∧
      .ofText "/src//./orders-old/a.permit.json" ∈ documents shelf (.ofText "/src//./") ∧
      (∃ stem, stem ≠ "" ∧ Mirrors (.ofText "/src//./") (some (.ofText "types/../d/"))
        (.ofText "/src//./orders/b.permit.json") stem) ∧
      (outputPath (.ofText "/src//./") (some (.ofText "types/../d/"))
          (.ofText "/src//./orders/b.permit.json")).components ≠
        (outputPath (.ofText "/src//./") (some (.ofText "types/../d/"))
          (.ofText "/src//./orders-old/a.permit.json")).components ∧
      outputPath (.ofText "/src//./") (some (.ofText "types/../d/"))
          (.ofText "/src//./orders/b.permit.json") =
        .ofText "types/../d/orders/b.d.ts" := by
  have hf : .ofText "/src//./orders/b.permit.json" ∈ documents shelf (.ofText "/src//./") :=
    mem_documents_iff.2 (by decide +kernel)
  have hg : .ofText "/src//./orders-old/a.permit.json" ∈ documents shelf (.ofText "/src//./") :=
    mem_documents_iff.2 (by decide +kernel)
  obtain ⟨hmirrors, hdistinct⟩ :=
    outputs_mirror_documents wellFormed_shelf "/src//./" (some "types/../d/") hf hg
  exact ⟨wellFormed_shelf, hf, hg, hmirrors, hdistinct (by decide +kernel), by decide +kernel⟩

end PermitTypes.Project
