import Mathlib.Data.List.Chain
import PermitTypes.Proofs.Emit.Culprit
import PermitTypes.Proofs.Emit.Printer
import PermitTypes.Proofs.Emit.Separators

namespace PermitTypes.Emit

open Schema Printer

/-- The lines of a text, of which each has an end. -/
def textLines (text : String) : List String :=
  ((text.toList.splitOn '\n').map String.ofList).dropLast

/-- What lies between empty lines. -/
def cutBlocks : List String → List (List String)
  | [] => []
  | lines => lines.splitOn ""

def unprefixed (front line : String) : Option String :=
  (front.toList.isPrefixOf? line.toList).map String.ofList

def unsuffixed (back line : String) : Option String :=
  (back.toList.isSuffixOf? line.toList).map String.ofList

/-- The name in the head of a declaration and the lines in it, not indented. -/
def readDeclaration : List String → Option (String × List String)
  | [] => none
  | head :: rest => do
    let type ← unprefixed "export type " head
    let name ← unsuffixed "MutatePermitType = \x7b" type
    let lines ← rest.dropLast.mapM (unprefixed "  ")
    if rest.getLast? = some "\x7d" then some (name, lines) else none

def readDeclarations (text : String) : Option (List (String × List String)) :=
  (cutBlocks (textLines text)).mapM readDeclaration

/-- The declarations without their heads and closing lines, not indented, and none that is empty. -/
def bareText (declarations : List (String × List String)) : String :=
  joinBlocks (((declarations.map (·.2)).filter (!·.isEmpty)).map joinLines)

/-- There are no empty lines at the ends and no two of them between. -/
structure Tidy (text : String) : Prop where
  gaps : (textLines text).IsChain fun a b => a ≠ "" ∨ b ≠ ""
  first : ∀ line ∈ (textLines text).head?, line ≠ ""
  last : text = "" ∨ ∃ front c, text.toList = front ++ [c, '\n'] ∧ c ≠ '\n'

theorem isPrefixOf?_append (front rest : List Char) :
    front.isPrefixOf? (front ++ rest) = some rest := by
  induction front with
  | nil => rfl
  | cons c front ih => simp [List.isPrefixOf?, ih]

theorem unprefixed_append (front line : String) : unprefixed front (front ++ line) = some line := by
  rw [unprefixed, String.toList_append, isPrefixOf?_append, Option.map_some, String.ofList_toList]

theorem unsuffixed_append (line back : String) : unsuffixed back (line ++ back) = some line := by
  rw [unsuffixed, String.toList_append, List.isSuffixOf?, List.reverse_append, isPrefixOf?_append,
    Option.map_some, List.reverse_reverse, Option.map_some, String.ofList_toList]

theorem mapM_unprefixed_indent (lines : List String) :
    (indent lines).mapM (unprefixed "  ") = some lines := by
  induction lines with
  | nil => rfl
  | cons line lines ih =>
      rw [indent, List.map_cons, List.mapM_cons, unprefixed_append]
      rw [indent] at ih
      rw [ih]
      rfl

theorem readDeclaration_declarationLines (name : String) (lines : List String) :
    readDeclaration (declarationLines name lines) = some (pascalCase name, lines) := by
  have htype : unsuffixed "MutatePermitType = \x7b" (permitTypeName name ++ " = \x7b") =
      some (pascalCase name) := by
    rw [permitTypeName, String.append_assoc]
    exact unsuffixed_append ..
  rw [declarationLines, List.cons_append, readDeclaration, String.append_assoc, unprefixed_append,
    List.dropLast_concat, List.getLast?_concat, mapM_unprefixed_indent]
  simp [htype]

/-- A line that stays one line, and is not taken for an empty one. -/
structure Proper (line : String) : Prop where
  single : '\n' ∉ line.toList
  visible : ∃ c ∈ line.toList, c ≠ ' '

instance (line : String) : Decidable (Proper line) :=
  decidable_of_iff ('\n' ∉ line.toList ∧ line.toList.any (· ≠ ' ') = true)
    ⟨fun h => ⟨h.1, by simpa using h.2⟩, fun h => ⟨h.single, by simpa using h.visible⟩⟩

theorem Proper.ne_empty {line : String} (h : Proper line) : line ≠ "" := by
  rintro rfl
  obtain ⟨c, hc, -⟩ := h.visible
  cases hc

theorem Proper.last {line : String} (h : Proper line) (before : String) :
    ∃ front c, (before ++ ended [line]).toList = front ++ [c, '\n'] ∧ c ≠ '\n' := by
  rcases List.eq_nil_or_concat line.toList with hnil | ⟨front, c, hconcat⟩
  · exact absurd (String.toList_inj.1 hnil) h.ne_empty
  · rw [List.concat_eq_append] at hconcat
    refine ⟨before.toList ++ front, c, ?_, ?_⟩
    · have hend : (ended [line]).toList = line.toList ++ ['\n'] := by
        rw [ended, ended, String.append_empty, String.toList_append]
        rfl
      rw [String.toList_append, hend, hconcat, List.append_assoc, List.append_assoc]
      rfl
    · rintro rfl
      refine h.single ?_
      rw [hconcat]
      exact List.mem_append_right _ List.mem_cons_self

theorem toList_ended_cons (line : String) (lines : List String) :
    (ended (line :: lines)).toList = line.toList ++ '\n' :: (ended lines).toList := by
  rw [ended, String.toList_append, String.toList_append, List.append_assoc]
  rfl

theorem textLines_ended {lines : List String} (h : ∀ line ∈ lines, '\n' ∉ line.toList) :
    textLines (ended lines) = lines := by
  have hsplit : (ended lines).toList.splitOn '\n' = lines.map String.toList ++ [[]] := by
    induction lines with
    | nil => rfl
    | cons line lines ih =>
        obtain ⟨hline, hlines⟩ := List.forall_mem_cons.1 h
        rw [toList_ended_cons, List.splitOn_append_cons_self_of_not_mem hline, ih hlines]
        rfl
  rw [textLines, hsplit, List.map_append, List.map_singleton, List.dropLast_concat, List.map_map]
  simp [Function.comp_def]

theorem cutBlocks_of_ne_nil {lines : List String} (h : lines ≠ []) :
    cutBlocks lines = lines.splitOn "" := by
  cases lines with
  | nil => exact absurd rfl h
  | cons line lines => rfl

theorem intercalate_eq_append (lines : List String) (blocks : List (List String)) :
    ∃ tail, [""].intercalate (lines :: blocks) = lines ++ tail := by
  cases blocks with
  | nil => exact ⟨[], by rw [List.intercalate_singleton, List.append_nil]⟩
  | cons next blocks => exact ⟨_, by rw [List.intercalate_cons_cons, List.append_assoc]⟩

theorem intercalate_ne_nil {lines : List String} (h : lines ≠ []) (blocks : List (List String)) :
    [""].intercalate (lines :: blocks) ≠ [] := by
  obtain ⟨tail, htail⟩ := intercalate_eq_append lines blocks
  rw [htail]
  exact List.append_ne_nil_of_left_ne_nil h tail

theorem cutBlocks_intercalate {blocks : List (List String)}
    (h : ∀ lines ∈ blocks, lines ≠ [] ∧ "" ∉ lines) :
    cutBlocks ([""].intercalate blocks) = blocks := by
  cases blocks with
  | nil => rfl
  | cons lines blocks =>
      rw [cutBlocks_of_ne_nil (intercalate_ne_nil (h lines List.mem_cons_self).1 blocks)]
      exact List.splitOn_intercalate "" (fun ls hls => (h ls hls).2) (List.cons_ne_nil _ _)

section Blocks

/-- Blocks of proper lines, none of them empty. -/
def ProperBlocks (blocks : List (List String)) : Prop :=
  ∀ lines ∈ blocks, lines ≠ [] ∧ ∀ line ∈ lines, Proper line

variable {blocks : List (List String)}

theorem ProperBlocks.tail {lines : List String} (h : ProperBlocks (lines :: blocks)) :
    ProperBlocks blocks :=
  (List.forall_mem_cons.1 h).2

theorem head?_intercalate (h : ProperBlocks blocks) :
    ∀ line ∈ ([""].intercalate blocks).head?, Proper line := by
  cases blocks with
  | nil => exact fun _ hline => nomatch hline
  | cons lines blocks =>
      obtain ⟨hne, hlines⟩ := h lines List.mem_cons_self
      obtain ⟨tail, htail⟩ := intercalate_eq_append lines blocks
      rw [htail, List.head?_append_of_ne_nil _ hne]
      exact fun line hline => hlines line (List.mem_of_head? hline)

theorem getLast?_intercalate (h : ProperBlocks blocks) :
    ∀ line ∈ ([""].intercalate blocks).getLast?, Proper line := by
  induction blocks with
  | nil => exact fun _ hline => nomatch hline
  | cons lines blocks ih =>
      obtain ⟨hne, hlines⟩ := h lines List.mem_cons_self
      cases blocks with
      | nil =>
          rw [List.intercalate_singleton]
          exact fun line hline => hlines line (List.mem_of_getLast? hline)
      | cons next blocks =>
          have hrest := intercalate_ne_nil (h.tail next List.mem_cons_self).1 blocks
          rw [List.intercalate_cons_cons, List.getLast?_append_of_ne_nil _ hrest]
          exact ih h.tail

theorem gaps_intercalate (h : ProperBlocks blocks) :
    ([""].intercalate blocks).IsChain fun a b => a ≠ "" ∨ b ≠ "" := by
  induction blocks with
  | nil => exact .nil
  | cons lines blocks ih =>
      obtain ⟨hne, hlines⟩ := h lines List.mem_cons_self
      have hchain : lines.IsChain fun a b => a ≠ "" ∨ b ≠ "" :=
        (List.pairwise_of_forall_mem_list fun a ha _ _ => .inl (hlines a ha).ne_empty).isChain
      cases blocks with
      | nil => rwa [List.intercalate_singleton]
      | cons next blocks =>
          rw [List.intercalate_cons_cons, List.append_assoc, List.isChain_append]
          refine ⟨hchain, List.isChain_cons.2 ⟨fun line hline => ?_, ih h.tail⟩,
            fun line hline _ _ => ?_⟩
          · exact .inr (head?_intercalate h.tail line hline).ne_empty
          · exact .inl (hlines line (List.mem_of_getLast? hline)).ne_empty

theorem single_of_mem_intercalate (h : ProperBlocks blocks) :
    ∀ line ∈ [""].intercalate blocks, '\n' ∉ line.toList := by
  induction blocks with
  | nil => exact fun _ hline => nomatch hline
  | cons lines blocks ih =>
      have hlines : ∀ line ∈ lines, '\n' ∉ line.toList :=
        fun line hline => ((h lines List.mem_cons_self).2 line hline).single
      cases blocks with
      | nil => rwa [List.intercalate_singleton]
      | cons next blocks =>
          rw [List.intercalate_cons_cons, List.append_assoc]
          exact List.forall_mem_append.2 ⟨hlines,
            List.forall_mem_cons.2 ⟨List.not_mem_nil, ih h.tail⟩⟩

/-- A text of blocks is cut into the same blocks. -/
theorem cutBlocks_textLines (h : ProperBlocks blocks) :
    cutBlocks (textLines (ended ([""].intercalate blocks))) = blocks := by
  rw [textLines_ended (single_of_mem_intercalate h)]
  exact cutBlocks_intercalate fun lines hlines =>
    ⟨(h lines hlines).1, fun hmem => ((h lines hlines).2 "" hmem).ne_empty rfl⟩

theorem tidy_ended (h : ProperBlocks blocks) : Tidy (ended ([""].intercalate blocks)) where
  gaps := by
    rw [textLines_ended (single_of_mem_intercalate h)]
    exact gaps_intercalate h
  first := by
    rw [textLines_ended (single_of_mem_intercalate h)]
    exact fun line hline => (head?_intercalate h line hline).ne_empty
  last := by
    rcases List.eq_nil_or_concat ([""].intercalate blocks) with hnil | ⟨front, line, hconcat⟩
    · rw [hnil]
      exact .inl rfl
    · have hline : Proper line := by
        refine getLast?_intercalate h line ?_
        rw [hconcat, List.concat_eq_append]
        exact List.getLast?_concat
      rw [hconcat, List.concat_eq_append, ended_append]
      exact .inr (hline.last (ended front))

end Blocks

theorem Proper.append {a b : String} (ha : Proper a) (hb : '\n' ∉ b.toList) : Proper (a ++ b) := by
  obtain ⟨c, hc, hblank⟩ := ha.visible
  refine ⟨?_, c, ?_, hblank⟩
  · rw [String.toList_append, List.mem_append, not_or]
    exact ⟨ha.single, hb⟩
  · rw [String.toList_append]
    exact List.mem_append_left _ hc

theorem Proper.append_left {a b : String} (ha : '\n' ∉ a.toList) (hb : Proper b) :
    Proper (a ++ b) := by
  obtain ⟨c, hc, hblank⟩ := hb.visible
  refine ⟨?_, c, ?_, hblank⟩
  · rw [String.toList_append, List.mem_append, not_or]
    exact ⟨ha, hb.single⟩
  · rw [String.toList_append]
    exact List.mem_append_right _ hc

/-- No field that is reached in what is rendered has a name of several lines. -/
def SingleLineNames (permit : Permit) : Prop :=
  ∀ fields ∈ rendered permit, ∀ level name p, Under fields level name p → '\n' ∉ name.toList

theorem singleLineNames_iff {permit : Permit} : SingleLineNames permit ↔
    ∀ fields ∈ rendered permit, ∀ f ∈ nested 0 fields, '\n' ∉ f.name.toList := by
  refine forall_congr' fun fields => forall_congr' fun _ => ?_
  exact ⟨fun h f hf => h _ _ _ (mem_nested_iff.1 hf),
    fun h level name p hp => h ⟨level, name, p⟩ (mem_nested_iff.2 hp)⟩

instance (permit : Permit) : Decidable (SingleLineNames permit) :=
  decidable_of_iff _ singleLineNames_iff.symm

theorem pascalCase_single (name : String) : '\n' ∉ (pascalCase name).toList :=
  fun h => pascalCase_not_separator h (by decide)

theorem proper_label {name : String} (h : '\n' ∉ name.toList) (optional : Bool) :
    Proper (label name optional) := by
  have hmark : '\n' ∉ (if optional then "?" else "").toList := by cases optional <;> decide
  have hcolon : Proper ": " := by decide
  refine hcolon.append_left ?_
  rw [String.toList_append, List.mem_append, not_or]
  exact ⟨h, hmark⟩

theorem proper_ownRows {f : Nested} (h : '\n' ∉ f.name.toList) (base : Nat) :
    ∀ r ∈ ownRows base f, Proper r.text := by
  obtain ⟨level, name, kind, optional, list, fields⟩ := f
  have hlabel := proper_label h optional
  have hopen : '\n' ∉ (listOpen list).toList := by cases list <;> decide
  have hclose : '\n' ∉ (listClose list).toList := by cases list <;> decide
  have hbrace : Proper "\x7d" := by decide
  have hscalar {type : String} (ht : scalarType kind = some type) : '\n' ∉ type.toList := by
    cases kind <;> cases ht <;> decide
  intro r hr
  rw [ownRows] at hr
  split at hr
  · rename_i type ht
    obtain rfl := List.mem_singleton.1 hr
    exact ((hlabel.append hopen).append (hscalar ht)).append hclose
  · split at hr
    · rcases List.mem_pair.1 hr with rfl | rfl
      · exact (hlabel.append hopen).append (by decide)
      · exact hbrace.append hclose
    · cases hr

theorem proper_frame (facet : Facet) : ∀ r ∈ facet.frame, Proper r.text := by
  have hfilter (optional : Bool) : Proper ("filter" ++ filterMark optional ++ ":") ∧
      Proper ("filter" ++ filterMark optional ++ ": \x7b") := by
    cases optional <;> decide
  have hbrace : Proper "\x7d" := by decide
  cases facet with
  | filter optional filter =>
      cases filter with
      | shape fields =>
          exact List.forall_mem_cons.2 ⟨(hfilter optional).2, List.forall_mem_singleton.2 hbrace⟩
      | union shapes =>
          refine List.forall_mem_cons.2 ⟨(hfilter optional).1, fun r hr => ?_⟩
          obtain ⟨shape, -, hr⟩ := List.mem_flatMap.1 hr
          rcases List.mem_pair.1 hr with rfl | rfl
          · exact (by decide : Proper "| \x7b")
          · exact hbrace
  | effect fields =>
      exact List.forall_mem_cons.2
        ⟨(by decide : Proper "effect: \x7b"), List.forall_mem_singleton.2 hbrace⟩
  | extension schema =>
      have hextend : Proper "extend: " := by decide
      refine List.forall_mem_singleton.2 (hextend.append ?_)
      rw [extendTypeName, String.toList_append, List.mem_append, not_or]
      exact ⟨pascalCase_single schema, by decide⟩

theorem containers_rendered {options : Options} {permit : Permit} {facet : Facet}
    (h : facet ∈ facets options permit) {c : Nat × Fields} (hc : c ∈ facet.containers) :
    c.2 ∈ rendered permit := by
  obtain ⟨filter, effect, extend⟩ := permit
  simp only [facets, List.mem_append, Option.mem_toList, Option.map_eq_some_iff] at h
  rcases h with (⟨filter, rfl, rfl⟩ | ⟨fields, rfl, rfl⟩) | ⟨schema, -, rfl⟩
  · refine List.mem_append_left _ ?_
    cases filter with
    | shape fields =>
        obtain rfl := List.mem_singleton.1 hc
        exact List.mem_cons_self
    | union shapes =>
        obtain ⟨shape, hshape, rfl⟩ := List.mem_map.1 hc
        exact hshape
  · obtain rfl := List.mem_singleton.1 hc
    exact List.mem_append_right _ List.mem_cons_self
  · cases hc

theorem proper_rows {options : Options} {permit : Permit} (h : SingleLineNames permit)
    {facet : Facet} (hfacet : facet ∈ facets options permit) : ∀ r ∈ facet.rows, Proper r.text := by
  intro r hr
  rcases List.mem_append.1 ((rows_perm facet).mem_iff.1 hr) with hr | hr
  · exact proper_frame facet r hr
  · obtain ⟨c, hc, hr⟩ := List.mem_flatMap.1 hr
    obtain ⟨f, hf, hr⟩ := List.mem_flatMap.1 hr
    have hunder := mem_nested_iff.1 hf
    exact proper_ownRows (h c.2 (containers_rendered hfacet hc) _ _ _ hunder) c.1 r hr

/-- Blanks in front make no difference. -/
theorem proper_line_iff (r : Row) : Proper r.line ↔ Proper r.text := by
  have hblanks : ∀ c ∈ (String.ofList (List.replicate (2 * r.depth) ' ')).toList, c = ' ' := by
    intro c hc
    rw [String.toList_ofList] at hc
    exact List.eq_of_mem_replicate hc
  have hsingle : '\n' ∉ (String.ofList (List.replicate (2 * r.depth) ' ')).toList :=
    fun h => absurd (hblanks _ h) (by decide)
  constructor
  · rintro ⟨hline, c, hc, hblank⟩
    rw [Row.line, String.toList_append, List.mem_append] at hline hc
    rcases hc with hc | hc
    · exact absurd (hblanks c hc) hblank
    · exact ⟨fun h => hline (.inr h), c, hc, hblank⟩
  · exact Proper.append_left hsingle

theorem proper_permitLines {options : Options} {permit : Permit} {lines : List String}
    (hnames : SingleLineNames permit) (h : permitLines options permit = .ok lines) :
    ∀ line ∈ lines, Proper line := by
  intro line hline
  have hmem : Row.line ⟨1, line⟩ ∈ ((facets options permit).flatMap Facet.rows).map Row.line := by
    rw [lines_facets h]
    exact List.mem_map.2 ⟨line, hline, rfl⟩
  obtain ⟨r, hr, heq⟩ := List.mem_map.1 hmem
  obtain ⟨facet, hfacet, hr⟩ := List.mem_flatMap.1 hr
  have hproper := (proper_line_iff r).2 (proper_rows hnames hfacet r hr)
  rw [heq] at hproper
  exact (proper_line_iff ⟨1, line⟩).1 hproper

theorem proper_declarationLines (name : String) {lines : List String}
    (h : ∀ line ∈ lines, Proper line) : ∀ line ∈ declarationLines name lines, Proper line := by
  have hhead : Proper ("export type " ++ permitTypeName name ++ " = \x7b") := by
    have hexport : Proper "export type " := by decide
    refine (hexport.append ?_).append (by decide)
    rw [permitTypeName, String.toList_append, List.mem_append, not_or]
    exact ⟨pascalCase_single name, by decide⟩
  rw [declarationLines, List.cons_append]
  refine List.forall_mem_cons.2 ⟨hhead, List.forall_mem_append.2 ⟨fun line hline => ?_, ?_⟩⟩
  · obtain ⟨inner, hinner, rfl⟩ := List.mem_map.1 hline
    exact Proper.append_left (by decide) (h inner hinner)
  · exact List.forall_mem_singleton.2 (by decide)

theorem forall₂_bodies {options : Options} {permits : List (String × Permit)}
    {bodies : List (String × List String)} (h : permitBodies options permits = .ok bodies) :
    List.Forall₂ (fun e b => b.1 = e.1 ∧ permitLines options e.2 = .ok b.2) permits bodies := by
  induction permits generalizing bodies with
  | nil =>
      cases h
      exact .nil
  | cons e rest ih =>
      obtain ⟨lines, others, hl, ho, rfl⟩ := permitBodies_cons_eq_ok h
      exact .cons ⟨rfl, hl⟩ (ih ho)

theorem ended_eq_empty_iff {lines : List String} : ended lines = "" ↔ lines = [] := by
  cases lines with
  | nil => exact ⟨fun _ => rfl, fun _ => rfl⟩
  | cons line lines =>
      refine ⟨fun h => ?_, fun h => nomatch h⟩
      have hchars := congrArg String.toList h
      rw [toList_ended_cons] at hchars
      exact absurd hchars (List.append_ne_nil_of_right_ne_nil _ (List.cons_ne_nil _ _))

theorem ended_intercalate_eq_empty_iff {blocks : List (List String)} (h : ProperBlocks blocks) :
    ended ([""].intercalate blocks) = "" ↔ blocks = [] := by
  rw [ended_eq_empty_iff]
  cases blocks with
  | nil => exact ⟨fun _ => rfl, fun _ => rfl⟩
  | cons lines blocks =>
      have hne := intercalate_ne_nil (h lines List.mem_cons_self).1 blocks
      exact ⟨fun hnil => absurd hnil hne, fun hnil => nomatch hnil⟩

theorem forall_mem_right {α β : Type} {P : β → Prop} {as : List α} {bs : List β}
    (h : List.Forall₂ (fun _ b => P b) as bs) : ∀ b ∈ bs, P b := by
  induction h with
  | nil => exact fun _ hb => nomatch hb
  | cons hb _ ih => exact List.forall_mem_cons.2 ⟨hb, ih⟩

theorem mapM_readDeclaration (bodies : List (String × List String)) :
    (bodies.map fun b => declarationLines b.1 b.2).mapM readDeclaration =
      some (bodies.map fun b => (pascalCase b.1, b.2)) := by
  induction bodies with
  | nil => rfl
  | cons b bodies ih =>
      rw [List.map_cons, List.mapM_cons, readDeclaration_declarationLines, ih]
      rfl

section Bodies

variable {options : Options} {document : Document} {bodies : List (String × List String)}

theorem proper_bodies (hnames : ∀ e ∈ document.permits, SingleLineNames e.2)
    (hbodies : permitBodies options document.permits = .ok bodies) :
    ∀ b ∈ bodies, ∀ line ∈ b.2, Proper line := by
  have hlines := (List.forall₂_and_left _ _).2 ⟨hnames, forall₂_bodies hbodies⟩
  exact forall_mem_right (hlines.imp fun _ _ h => proper_permitLines h.1 h.2.2)

theorem documentText_eq_ended (hbodies : permitBodies options document.permits = .ok bodies) :
    documentText options document =
      .ok (ended ([""].intercalate (bodies.map fun b => declarationLines b.1 b.2))) := by
  have hne : ∀ lines ∈ bodies.map fun b => declarationLines b.1 b.2, lines ≠ [] := by
    intro lines hmem
    obtain ⟨b, -, rfl⟩ := List.mem_map.1 hmem
    exact List.cons_ne_nil _ _
  rw [ended_intercalate hne, List.map_map, documentText, hbodies]
  rfl

theorem linesText_eq_ended (hbodies : permitBodies options document.permits = .ok bodies) :
    linesText options document =
      .ok (ended ([""].intercalate ((bodies.map (·.2)).filter (!·.isEmpty)))) := by
  have hne : ∀ lines ∈ (bodies.map (·.2)).filter (!·.isEmpty), lines ≠ [] := by
    intro lines hmem
    simpa using (List.mem_filter.1 hmem).2
  rw [ended_intercalate hne, List.filter_map, List.map_map, linesText, hbodies]
  rfl

end Bodies

/-- Either text can be cut into what was put together: the long one into a declaration for each
permit, in order, with the lines of the permit in it, the short one into those of these lines that
there are. So the short text is what is left of the long one, for any names of permits and
extensions, and neither has an empty line that does not part two blocks. -/
theorem texts_cut_into_bodies {options : Options} {document : Document} {text : String}
    (hnames : ∀ e ∈ document.permits, SingleLineNames e.2)
    (h : documentText options document = .ok text) :
    ∃ declarations, readDeclarations text = some declarations ∧
      List.Forall₂ (fun e d => d.1 = pascalCase e.1 ∧ permitLines options e.2 = .ok d.2)
        document.permits declarations ∧
      Tidy text ∧ (text = "" ↔ document.permits = []) ∧
      ∃ short, linesText options document = .ok short ∧ short = bareText declarations ∧
        cutBlocks (textLines short) = (declarations.map (·.2)).filter (!·.isEmpty) ∧
        Tidy short ∧ (short = "" ↔ ∀ d ∈ declarations, d.2 = []) := by
  obtain ⟨bodies, hbodies, -⟩ := bind_eq_ok_iff.1 h
  have hlines := forall₂_bodies hbodies
  have hproper := proper_bodies hnames hbodies
  have hlong : ProperBlocks (bodies.map fun b => declarationLines b.1 b.2) := by
    intro lines hmem
    obtain ⟨b, hb, rfl⟩ := List.mem_map.1 hmem
    exact ⟨List.cons_ne_nil _ _, proper_declarationLines b.1 (hproper b hb)⟩
  have hshort : ProperBlocks ((bodies.map (·.2)).filter (!·.isEmpty)) := by
    intro lines hmem
    obtain ⟨hmem, hne⟩ := List.mem_filter.1 hmem
    obtain ⟨b, hb, rfl⟩ := List.mem_map.1 hmem
    exact ⟨by simpa using hne, hproper b hb⟩
  have hkept : (bodies.map fun b => (pascalCase b.1, b.2)).map (·.2) = bodies.map (·.2) := by
    rw [List.map_map]
    rfl
  obtain rfl := Except.ok.inj (h.symm.trans (documentText_eq_ended hbodies))
  refine ⟨bodies.map fun b => (pascalCase b.1, b.2), ?_, ?_, tidy_ended hlong, ?_, _,
    linesText_eq_ended hbodies, ?_, ?_, tidy_ended hshort, ?_⟩
  · rw [readDeclarations, cutBlocks_textLines hlong, mapM_readDeclaration]
  · rw [List.forall₂_map_right_iff]
    exact hlines.imp fun e b hb => ⟨congrArg pascalCase hb.1, hb.2⟩
  · rw [ended_intercalate_eq_empty_iff hlong, List.map_eq_nil_iff, ← List.length_eq_zero_iff,
      ← hlines.length_eq, List.length_eq_zero_iff]
  · rw [bareText, hkept, ended_intercalate fun lines hmem => (hshort lines hmem).1]
  · rw [cutBlocks_textLines hshort, hkept]
  · rw [ended_intercalate_eq_empty_iff hshort, List.filter_eq_nil_iff, List.forall_mem_map,
      List.forall_mem_map]
    simp

/-- A name and an extension of separators alone, and a permit without lines. -/
def gaps : Document where
  permits := [("- -", { extend := some "\n/\n" }), ("empty", {}),
    ("a b", { effect := some [("", .object [("x", .ofTag "text")])] })]

theorem gaps_cut :
    let text := "export type MutatePermitType = \x7b\n  extend: ExtendType\n\x7d\n\n" ++
      "export type EmptyMutatePermitType = \x7b\n\x7d\n\n" ++
      "export type ABMutatePermitType = \x7b\n  effect: \x7b\n    : \x7b\n" ++
      "      x: string\n    \x7d\n  \x7d\n\x7d\n"
    (∀ e ∈ gaps.permits, SingleLineNames e.2) ∧ documentText {} gaps = .ok text ∧
      linesText {} gaps =
        .ok "extend: ExtendType\n\neffect: \x7b\n  : \x7b\n    x: string\n  \x7d\n\x7d\n" ∧
      ∃ declarations, readDeclarations text = some declarations ∧
        linesText {} gaps = .ok (bareText declarations) ∧ Tidy text := by
  intro text
  have hnames : ∀ e ∈ gaps.permits, SingleLineNames e.2 := by decide
  have htext : documentText {} gaps = .ok text := eq_ok_of_toOption (by decide +kernel)
  obtain ⟨declarations, hread, -, htidy, -, short, hshort, rfl, -⟩ :=
    texts_cut_into_bodies hnames htext
  exact ⟨hnames, htext, eq_ok_of_toOption (by decide +kernel), declarations, hread, hshort, htidy⟩

end PermitTypes.Emit
