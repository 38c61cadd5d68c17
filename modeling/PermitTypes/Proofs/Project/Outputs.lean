import PermitTypes.Project.Compilation
import PermitTypes.Proofs.Files.Listing
import PermitTypes.Proofs.Files.Making
import PermitTypes.Proofs.Files.Writing
import PermitTypes.Proofs.Path.Order

namespace PermitTypes.Project

open Files
open PermitTypes.Path (IsName)
open View (Keeps Closed)

theorem eq_of_stem? {name stem : String} (h : stem? name = some stem) :
    name = stem ++ documentSuffix := by
  simp only [stem?] at h
  split at h
  · next hs =>
      obtain ⟨front, hf⟩ := List.isSuffixOf_iff_suffix.1 hs
      rw [← hf, List.length_append, Nat.add_sub_cancel, List.take_left', Option.some.injEq] at h
      · rw [← String.toList_inj, String.toList_append, ← h, String.toList_ofList, hf]
      · rfl
  · cases h

theorem stem?_append (stem : String) : stem? (stem ++ documentSuffix) = some stem := by
  simp [stem?, String.toList_append]

theorem getLast?_declaration (stem : String) :
    (stem ++ declarationSuffix).toList.getLast? = some 's' := by
  rw [String.toList_append, List.getLast?_append]
  rfl

theorem getLast?_document (stem : String) :
    (stem ++ documentSuffix).toList.getLast? = some 'n' := by
  rw [String.toList_append, List.getLast?_append]
  rfl

/-- A declaration is neither a document nor a config. -/
theorem stem?_declaration (stem : String) : stem? (stem ++ declarationSuffix) = none := by
  cases h : stem? (stem ++ declarationSuffix) with
  | none => rfl
  | some other =>
      have hlast := getLast?_declaration stem
      rw [eq_of_stem? h, getLast?_document] at hlast
      exact absurd hlast (by decide)

theorem declaration_ne_config (stem : String) : stem ++ declarationSuffix ≠ Config.fileName := by
  intro h
  have hlast := getLast?_declaration stem
  rw [h] at hlast
  exact absurd hlast (by decide)

theorem isName_declaration {stem : String} (h : '/' ∉ stem.toList) :
    IsName (.text (stem ++ declarationSuffix)) := by
  have hlong : 5 ≤ (stem ++ declarationSuffix).toList.length := by
    rw [String.toList_append, List.length_append]
    exact Nat.le_add_left ..
  have hshort : ∀ other : String, other.toList.length < 5 →
      Name.text (stem ++ declarationSuffix) ≠ other := by
    rintro other ho he
    rw [Name.text.inj he] at hlong
    exact absurd hlong (Nat.not_le.2 ho)
  refine ⟨?_, hshort ".." (by decide), ?_⟩
  · simp only [Path.isIdle, hshort "" (by decide), hshort "." (by decide), decide_false,
      Bool.or_false]
  · rw [Name.has_text_eq_false, String.toList_append, List.mem_append, not_or]
    exact ⟨h, by decide⟩

/-- The documents that a project is found to have. -/
def documents (root : Node) (dir : Path) : List Path := (root.run (findDocuments dir)).1

/-- A file at or below a directory that is named as a document. -/
structure Source (v : View) (dir f : Path) (names : List Name) (stem : String) : Prop where
  found : Found v dir f names
  named : f.fileName? = some (.text (stem ++ documentSuffix))
  nonempty : stem ≠ ""

theorem isDocumentName_iff {name : String} :
    isDocumentName name = true ↔ ∃ stem, name = stem ++ documentSuffix ∧ stem ≠ "" := by
  rw [isDocumentName]
  constructor
  · intro h
    split at h
    · cases h
    · next stem hstem => exact ⟨stem, eq_of_stem? hstem, of_decide_eq_true h⟩
  · rintro ⟨stem, rfl, hne⟩
    simp only [stem?_append]
    exact decide_eq_true hne

theorem isDocument_iff {f : Path} :
    isDocument f = true ↔
      ∃ stem, f.fileName? = some (.text (stem ++ documentSuffix)) ∧ stem ≠ "" := by
  rw [isDocument, Option.any_eq_true]
  simp only [Option.bind_eq_some_iff]
  constructor
  · rintro ⟨text, ⟨name, hn, htext⟩, hd⟩
    obtain ⟨stem, rfl, hne⟩ := isDocumentName_iff.1 hd
    exact ⟨stem, by rw [hn, Name.eq_of_text? htext], hne⟩
  · rintro ⟨stem, hn, hne⟩
    exact ⟨_, ⟨_, hn, rfl⟩, isDocumentName_iff.2 ⟨stem, rfl, hne⟩⟩

section Documents

variable {root after : Node} {dir f : Path}

theorem mem_documents_iff : f ∈ documents root dir ↔ f ∈ (root.filesAt dir).filter isDocument :=
  (List.mergeSort_perm _ _).mem_iff

theorem mem_documents (h : root.WellFormed) :
    f ∈ documents root dir ↔ ∃ names stem, Source root.view dir f names stem := by
  rw [mem_documents_iff, List.mem_filter, Node.mem_filesAt h, isDocument_iff]
  constructor
  · rintro ⟨⟨names, hfound⟩, stem, hn, hne⟩
    exact ⟨names, stem, hfound, hn, hne⟩
  · rintro ⟨names, stem, hs⟩
    exact ⟨⟨names, hs.found⟩, stem, hs.named, hs.nonempty⟩

theorem nodup_documents (h : root.WellFormed) (dir : Path) : (documents root dir).Nodup :=
  (List.mergeSort_perm _ _).nodup_iff.2 ((Node.nodup_filesAt h dir).filter _)

theorem Source.steps {v : View} {names : List Name} {stem : String}
    (h : Source v dir f names stem) : ∃ init, f.steps = init ++ [.text (stem ++ documentSuffix)] :=
  (Path.steps_of_fileName? h.named).1

theorem Source.spelled_eq {v : View} {names : List Name} {stem : String}
    (h : Source v dir f names stem) :
    spelled f = .text (stem ++ documentSuffix) :: (spelled f).tail := by
  obtain ⟨init, hi⟩ := h.steps
  have hup := (Path.steps_of_fileName? h.named).2
  have hmem : .text (stem ++ documentSuffix) ∈ f.steps :=
    hi ▸ List.mem_append_right _ List.mem_cons_self
  have hidle : Path.isIdle (.text (stem ++ documentSuffix)) = false := Path.idle_of_mem_stepsOf hmem
  have hf : spelled f = .text (stem ++ documentSuffix) :: View.settle [] init := by
    rw [spelled, hi, View.settle_append]
    exact View.move_name hidle hup _
  rw [hf]
  rfl

theorem eq_of_components_eq (h : root.WellFormed) :
    ∀ p ∈ (root.filesAt dir).filter isDocument, ∀ q ∈ (root.filesAt dir).filter isDocument,
      p.components = q.components → p = q :=
  fun _ hp _ hq => Node.eq_of_mem_filesAt h (List.mem_filter.1 hp).1 (List.mem_filter.1 hq).1

theorem documents_eq_of_mem_iff (h : root.WellFormed) (ha : after.WellFormed)
    (hmem : ∀ f, f ∈ documents after dir ↔ f ∈ documents root dir) :
    documents after dir = documents root dir := by
  refine Path.mergeSort_eq_of_mem_iff ((Node.nodup_filesAt ha dir).filter _)
    ((Node.nodup_filesAt h dir).filter _) (fun f => ?_) (eq_of_components_eq ha)
  rw [← mem_documents_iff, ← mem_documents_iff]
  exact hmem f

/-- The same documents are found where no file with such a name is new. -/
theorem documents_eq (h : root.WellFormed) (ha : after.WellFormed) (hk : Keeps root.view after.view)
    (hfind : root.view.find dir = .ok (spelled dir))
    (hnew : ∀ stem rest content,
      after.view (.text (stem ++ documentSuffix) :: rest) = some (.file content) →
        ∃ content, root.view (.text (stem ++ documentSuffix) :: rest) = some (.file content)) :
    documents after dir = documents root dir := by
  refine documents_eq_of_mem_iff h ha fun f => ?_
  rw [mem_documents ha, mem_documents h]
  refine exists_congr fun names => exists_congr fun stem => ⟨fun hs => ?_, fun hs => ?_⟩
  · refine ⟨⟨hs.found.path, hs.found.proper, hs.found.listable, hfind, ?_⟩, hs.named, hs.nonempty⟩
    obtain ⟨content, hc⟩ := hs.found.exists_content
    rw [hs.spelled_eq] at hc
    rw [← hs.found.spelled_eq, hs.spelled_eq]
    exact hnew _ _ _ hc
  · exact ⟨hs.found.mono hk, hs.named, hs.nonempty⟩

end Documents

section Outputs

variable {v : View} {dir f g : Path} {names others : List Name} {stem other : String}
  {out : Option Path}

theorem Source.declarationName_eq (h : Source v dir f names stem) :
    declarationName f = stem ++ declarationSuffix := by
  rw [declarationName, h.named]
  simp only [Option.bind_some, Name.text?, Option.getD_some, stem?_append]

theorem Source.relativeTo_eq (h : Source v dir f names stem) :
    relativeTo dir f = Path.assemble [] names := by
  rw [relativeTo, h.found.path, Path.stripBase_below dir h.found.proper]
  rfl

theorem Source.sound (h : Source v dir f names stem) (hdir : dir.Sound) : f.Sound :=
  h.found.path ▸ hdir.below h.found.proper

theorem Source.isName (h : Source v dir f names stem) (hdir : dir.Sound) :
    IsName (.text (stem ++ declarationSuffix)) := by
  have hname := ((h.sound hdir).isName_fileName h.named).slashFree
  rw [Name.has_text_eq_false, String.toList_append, List.mem_append, not_or] at hname
  exact isName_declaration hname.1

/-- The place of the directory that the output of a document goes to. -/
def outputBase (out : Option Path) (f : Path) (names : List Name) : Place :=
  match out with
  | none => (spelled f).tail
  | some o => names.dropLast.reverse ++ spelled o

theorem Source.exists_above (h : Source v dir f names stem) :
    ∃ above, f.parent? = some above ∧ Path.Above f above ∧
      outputPath dir none f = above.joinText (stem ++ declarationSuffix) := by
  obtain ⟨init, hi⟩ := h.steps
  obtain ⟨above, hparent, habove⟩ := Path.exists_parent? (p := f) (by simp [hi])
  refine ⟨above, hparent, habove, ?_⟩
  simp only [outputPath, Path.withFileName, h.named, h.declarationName_eq, hparent,
    Option.getD_some]

theorem Source.outputPath_some (h : Source v dir f names stem) (o : Path) :
    outputPath dir (some o) f =
      (o.join (Path.assemble [] names.dropLast)).joinText (stem ++ declarationSuffix) := by
  simp only [outputPath, h.relativeTo_eq, Path.parent?_assemble h.found.proper,
    h.declarationName_eq]

theorem Source.proper_dropLast (h : Source v dir f names stem) : ∀ n ∈ names.dropLast, IsName n :=
  fun n hn => h.found.proper n (List.dropLast_subset _ hn)

theorem Source.exists_base (h : Source v dir f names stem) (hdir : dir.Sound)
    (hout : ∀ o ∈ out, o.Sound) :
    ∃ y, outputPath dir out f = y.joinName (.text (stem ++ declarationSuffix)) ∧ y.Sound ∧
      spelled y = outputBase out f names := by
  have hjoin := (h.isName hdir).joinText_eq
  cases out with
  | none =>
      obtain ⟨above, -, habove, hpath⟩ := h.exists_above
      refine ⟨above, hpath.trans (hjoin above), habove.sound (h.sound hdir), ?_⟩
      have hs : spelled f = View.move (spelled above) (.text (stem ++ documentSuffix)) := by
        obtain ⟨init, hi⟩ := h.steps
        rw [spelled, spelled, habove.steps, hi, List.dropLast_concat, View.settle_append]
        rfl
      have hname := (h.sound hdir).isName_fileName h.named
      rw [View.move_name hname.step hname.down] at hs
      rw [outputBase, hs]
      rfl
  | some o =>
      have hproper := h.proper_dropLast
      refine ⟨o.join (Path.assemble [] names.dropLast), (h.outputPath_some o).trans (hjoin _),
        (hout o rfl).join (Path.sound_assemble hproper), ?_⟩
      rw [spelled, Path.steps_join (Path.isAbsolute_assemble hproper),
        Path.steps_assemble hproper, View.settle_append, View.settle_names hproper]
      rfl

/-- Where the output of a document goes. -/
theorem Source.exists_output (h : Source v dir f names stem) (hdir : dir.Sound)
    (hout : ∀ o ∈ out, o.Sound) :
    ∃ above, Output (outputPath dir out f) above (.text (stem ++ declarationSuffix)) ∧
      spelled (outputPath dir out f) =
        .text (stem ++ declarationSuffix) :: outputBase out f names := by
  obtain ⟨y, hpath, hy, hbase⟩ := h.exists_base hdir hout
  have hname := h.isName hdir
  obtain ⟨above, ho⟩ := Files.exists_output hy hname
  rw [hpath]
  exact ⟨above, ho, by rw [spelled_joinName hname, hbase]⟩

theorem Source.names_eq (h : Source v dir f names stem) (hne : names ≠ []) :
    names = names.dropLast ++ [.text (stem ++ documentSuffix)] := by
  obtain ⟨init, hi⟩ := h.steps
  rw [h.found.path, Path.steps_below h.found.proper, ← List.dropLast_concat_getLast hne,
    ← List.append_assoc] at hi
  have hlast := (List.append_inj' hi rfl).2
  rw [← hlast, List.dropLast_concat_getLast hne]

theorem Source.eq_nil_iff (hv : v.Closed) (h : Source v dir f names stem) :
    names = [] ↔ v (spelled dir) ≠ some .directory := by
  obtain ⟨content, hc⟩ := h.found.file
  constructor
  · rintro rfl
    rw [show v (spelled dir) = _ from hc]
    exact fun he => by cases he
  · intro hd
    by_contra hne
    refine hd (hv.directory (List.reverse_ne_nil_iff.2 hne) ?_)
    rw [hc]
    exact Option.some_ne_none _

/-- No two documents have their outputs at one place. -/
theorem Source.eq_of_output (hv : v.Closed) (hf : Source v dir f names stem)
    (hg : Source v dir g others other) (hdir : dir.Sound) (hout : ∀ o ∈ out, o.Sound)
    (h : spelled (outputPath dir out f) = spelled (outputPath dir out g)) : f = g := by
  obtain ⟨-, -, hpf⟩ := hf.exists_output hdir hout
  obtain ⟨-, -, hpg⟩ := hg.exists_output hdir hout
  rw [hpf, hpg, List.cons.injEq, Name.text.injEq, String.append_left_inj] at h
  obtain ⟨rfl, hbase⟩ := h
  have hnames : names = others := by
    cases out with
    | none =>
        have hs : spelled f = spelled g := by
          rw [hf.spelled_eq, hg.spelled_eq]
          exact congrArg _ hbase
        rw [hf.found.spelled_eq, hg.found.spelled_eq, List.append_cancel_right_eq,
          List.reverse_inj] at hs
        exact hs
    | some o =>
        have hlast : names.dropLast = others.dropLast :=
          List.reverse_inj.1 (List.append_cancel_right hbase)
        have hnil : names = [] ↔ others = [] := (hf.eq_nil_iff hv).trans (hg.eq_nil_iff hv).symm
        by_cases hne : names = []
        · rw [hne, hnil.1 hne]
        · rw [hf.names_eq hne, hg.names_eq (mt hnil.2 hne), hlast]
  rw [hf.found.path, hg.found.path, hnames]

end Outputs

end PermitTypes.Project
