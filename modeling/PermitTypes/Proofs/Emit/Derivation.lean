import PermitTypes.Proofs.Emit.Legible
import PermitTypes.Proofs.Emit.Success
import PermitTypes.Proofs.Emit.Types

namespace PermitTypes.Emit

open Schema Token

def listed (list : Bool) (type : TypeTree) : TypeTree := if list then .array type else type

/-- The type of a single value. Nested fields are members of an object only. -/
def valueType (members : List MemberTree) : Kind → TypeTree
  | .timestamp => .named "Date"
  | .text | .uuid => .named "string"
  | .integer | .decimal => .named "number"
  | .boolean => .named "boolean"
  | .json => .named "object"
  | .object | .unknown _ => .record members

mutual

/-- What a property is meant to be. -/
def typeOf : Property → TypeTree
  | ⟨kind, _, list, none⟩ => listed list (valueType [] kind)
  | ⟨kind, _, list, some fields⟩ => listed list (valueType (membersOf fields) kind)

def membersOf : List (String × Property) → List MemberTree
  | [] => []
  | (name, p) :: rest => .mk name p.optional (typeOf p) :: membersOf rest

end

/-- One branch for each shape of a union. A union without shapes has no lines. -/
def filterType : Filter → TypeTree
  | .shape fields => .record (membersOf fields)
  | .union [] => .record []
  | .union (shape :: rest) => .union (membersOf shape) (rest.map membersOf)

def facetMember {α : Type} (name : String) (optional : Bool) (type : α → TypeTree) :
    Option α → List MemberTree
  | none => []
  | some a => [.mk name optional (type a)]

def permitMembers (options : Options) (permit : Permit) : List MemberTree :=
  facetMember "filter" options.filterOptional filterType permit.filter ++
    facetMember "effect" false (fun fields => .record (membersOf fields)) permit.effect ++
    facetMember "extend" false (fun schema => .named (extendTypeName schema)) permit.extended

def declTree (options : Options) (e : String × Permit) : DeclTree :=
  ⟨permitTypeName e.1, permitMembers options e.2⟩

/-- What a document is meant to declare. -/
def declTrees (options : Options) (document : Document) : List DeclTree :=
  document.permits.map (declTree options)

theorem typeOf_eq (p : Property) :
    typeOf p = listed p.list (valueType (membersOf (p.fields.getD [])) p.kind) := by
  obtain ⟨kind, optional, list, fields⟩ := p
  cases fields with
  | none => rw [typeOf, Option.getD_none, membersOf]
  | some fields => rw [typeOf, Option.getD_some]

theorem valueType_of_scalarType {kind : Kind} {type : String} (h : scalarType kind = some type)
    (members : List MemberTree) : valueType members kind = .named type ∧ isIdentifier type := by
  cases kind <;> cases h <;> exact ⟨rfl, by decide⟩

def openTokens (list : Bool) : List Token := if list then [word "Array", mark '<'] else []

def closeTokens (list : Bool) : List Token := if list then [mark '>'] else []

theorem tokens_listed (list : Bool) (type : TypeTree) :
    (listed list type).tokens = openTokens list ++ (type.tokens ++ closeTokens list) := by
  cases list with
  | false => exact (List.append_nil _).symm
  | true => rfl

section Reading

variable {s : List Char} {ts : List Token}

theorem read_label {name : String} (hname : isIdentifier name) (optional : Bool)
    (h : read [] s = some ts) : read [] ((label name optional).toList ++ s) =
      some (word name :: (optionalMark optional ++ mark ':' :: ts)) := by
  have hcolon : read [] (':' :: ' ' :: s) = some (mark ':' :: ts) :=
    read_mark (by decide) ((read_space s).trans h)
  simp only [label, String.toList_append, List.append_assoc]
  cases optional with
  | false => exact read_word_cons hname (by decide) hcolon
  | true => exact read_word_cons hname (by decide) (read_mark (by decide) hcolon)

theorem read_listOpen (list : Bool) (h : read [] s = some ts) :
    read [] ((listOpen list).toList ++ s) = some (openTokens list ++ ts) := by
  cases list with
  | false => exact h
  | true =>
      have harray : isIdentifier "Array" := by decide
      exact read_word_cons harray (by decide) (read_mark (by decide) h)

theorem read_listClose (list : Bool) :
    read [] (listClose list).toList = some (closeTokens list) := by
  cases list <;> decide

theorem read_scalarLine {name type : String} (hname : isIdentifier name)
    (htype : isIdentifier type) (optional list : Bool) :
    read [] (scalarLine name optional list type).toList =
      some (MemberTree.mk name optional (listed list (.named type))).tokens := by
  have htyped : read [] (type.toList ++ (listClose list).toList) =
      some (word type :: closeTokens list) := by
    cases list with
    | false =>
        refine Eq.trans ?_ (read_identifier htype)
        exact congrArg (read []) (List.append_nil _)
    | true => exact read_word_cons htype (by decide) (read_listClose true)
  rw [MemberTree.tokens, tokens_listed, scalarLine]
  simp only [String.toList_append, List.append_assoc]
  exact read_label hname optional (read_listOpen list htyped)

theorem read_openLine {name : String} (hname : isIdentifier name) (optional list : Bool) :
    read [] (openLine name optional list).toList =
      some (word name ::
        (optionalMark optional ++ mark ':' :: (openTokens list ++ [mark '{']))) := by
  have hbrace : read [] "\x7b".toList = some [mark '{'] := by decide
  simp only [openLine, String.toList_append, List.append_assoc]
  exact read_label hname optional (read_listOpen list hbrace)

theorem read_closeLine (list : Bool) :
    read [] (closeLine list).toList = some (mark '}' :: closeTokens list) := by
  cases list <;> decide

end Reading

theorem readLines_enclosed {head last : String} {body : List String} {ts inner us : List Token}
    (hhead : read [] head.toList = some ts) (hbody : readLines body = some inner)
    (hlast : read [] last.toList = some us) :
    readLines (head :: indent body ++ [last]) = some (ts ++ (inner ++ us)) := by
  rw [List.cons_append, readLines, readLines_append, readLines_indent, readLines_singleton, hhead,
    hbody, hlast]
  rfl

mutual

theorem readLines_propertyLines {name : String} {lines : List String} (hname : isIdentifier name) :
    (p : Property) → IdentifiersInside p → propertyLines name p = .ok lines →
      readLines lines = some (MemberTree.mk name p.optional (typeOf p)).tokens
  | ⟨kind, optional, list, fields⟩, hp, h => by
      rw [typeOf_eq]
      rcases propertyLines_eq_ok h with ⟨type, ht, rfl⟩ | ⟨rfl, body, hb, rfl⟩
      · obtain ⟨hvalue, htype⟩ := valueType_of_scalarType ht (membersOf (fields.getD []))
        rw [hvalue, readLines_singleton]
        exact read_scalarLine hname htype optional list
      · have hbody : readLines body = some (membersTokens (membersOf (fields.getD []))) := by
          cases fields with
          | none => cases hb; rfl
          | some fields => exact readLines_fieldLines fields hp hb
        rw [readLines_enclosed (read_openLine hname optional list) hbody (read_closeLine list),
          MemberTree.tokens, tokens_listed, valueType, TypeTree.tokens]
        simp only [List.cons_append, List.append_assoc, List.nil_append]

theorem readLines_fieldLines {lines : List String} : (fields : List (String × Property)) →
    Identifiers fields → fieldLines fields = .ok lines →
      readLines lines = some (membersTokens (membersOf fields))
  | [], _, h => by cases h; rfl
  | (name, p) :: rest, hshown, h => by
      obtain ⟨hname, hp, hrest⟩ := hshown
      obtain ⟨first, others, hf, ho, rfl⟩ := fieldLines_cons_eq_ok h
      rw [readLines_append, readLines_propertyLines hname p hp hf,
        readLines_fieldLines rest hrest ho]
      rfl

end

theorem readLines_block {head : String} {fields : Fields} {lines : List String} {ts : List Token}
    (hhead : read [] head.toList = some ts) (hf : Identifiers fields)
    (h : block head fields = .ok lines) :
    readLines lines = some (ts ++ (membersTokens (membersOf fields) ++ [mark '}'])) := by
  obtain ⟨body, hb, rfl⟩ := block_eq_ok h
  exact readLines_enclosed hhead (readLines_fieldLines fields hf hb) (by decide)

theorem readLines_branchLines {shapes : List Fields} {lines : List String}
    (hs : ∀ shape ∈ shapes, Identifiers shape)
    (h : branchLines shapes = .ok lines) :
    readLines lines = some (branchesTokens (shapes.map membersOf)) := by
  induction shapes generalizing lines with
  | nil => cases h; rfl
  | cons shape rest ih =>
      obtain ⟨hshape, hrest⟩ := List.forall_mem_cons.1 hs
      obtain ⟨first, others, hf, ho, rfl⟩ := branchLines_cons_eq_ok h
      have hbar : read [] "| \x7b".toList = some [mark '|', mark '{'] := by decide
      rw [readLines_append, readLines_indent, readLines_block hbar hshape hf, ih hrest ho]
      simp only [join, Option.bind_some, Option.map_some, List.map_cons, branchesTokens,
        List.cons_append, List.append_assoc, List.nil_append]

theorem readLines_filterLines {optional : Bool} {filter : Filter} {lines : List String}
    (hs : ∀ fields ∈ filter.containers, Identifiers fields)
    (h : filterLines optional filter = .ok lines) :
    readLines lines = some (MemberTree.mk "filter" optional (filterType filter)).tokens := by
  cases filter with
  | shape fields =>
      have hhead : read [] ("filter" ++ filterMark optional ++ ": \x7b").toList =
          some (word "filter" :: (optionalMark optional ++ [mark ':', mark '{'])) := by
        cases optional <;> decide
      rw [readLines_block hhead (hs fields (List.mem_singleton_self fields)) h]
      simp only [MemberTree.tokens, filterType, TypeTree.tokens, List.cons_append,
        List.append_assoc, List.nil_append]
  | union shapes =>
      obtain ⟨hne, branches, hb, rfl⟩ := filterLines_union_eq_ok h
      have hhead : read [] ("filter" ++ filterMark optional ++ ":").toList =
          some (word "filter" :: (optionalMark optional ++ [mark ':'])) := by
        cases optional <;> decide
      have hbranches : readLines branches = some (branchesTokens (shapes.map membersOf)) :=
        readLines_branchLines hs hb
      rw [readLines, hhead, hbranches]
      cases shapes with
      | nil => exact absurd rfl hne
      | cons shape rest =>
          simp only [join, Option.bind_some, Option.map_some, List.map_cons, branchesTokens,
            MemberTree.tokens, filterType, TypeTree.tokens, List.cons_append, List.append_assoc,
            List.nil_append]

theorem readLines_effectLines {fields : Fields} {lines : List String}
    (hf : Identifiers fields) (h : effectLines fields = .ok lines) :
    readLines lines =
      some (MemberTree.mk "effect" false (.record (membersOf fields))).tokens := by
  have hhead : read [] "effect: \x7b".toList = some [word "effect", mark ':', mark '{'] := by decide
  rw [readLines_block hhead hf h]
  rfl

theorem read_extendLine {schema : String} (h : Nameable schema) :
    read [] (extendLine schema).toList =
      some (MemberTree.mk "extend" false (.named (extendTypeName schema))).tokens := by
  have hname : isIdentifier (extendTypeName schema) :=
    isIdentifier_pascalCase_append h (by decide)
  have hextend : isIdentifier "extend" := by decide
  rw [extendLine, String.toList_append]
  exact read_label hextend false (read_identifier hname)

theorem membersTokens_append (ms ms' : List MemberTree) :
    membersTokens (ms ++ ms') = membersTokens ms ++ membersTokens ms' := by
  induction ms with
  | nil => rfl
  | cons m ms ih => rw [List.cons_append, membersTokens, membersTokens, ih, List.append_assoc]

theorem readLines_facet {α : Type} {name : String} {optional : Bool} {type : α → TypeTree}
    {lines : α → Lines} {a : Option α} {ls : List String}
    (hlines : ∀ x ∈ a, ∀ ls, lines x = .ok ls →
      readLines ls = some (MemberTree.mk name optional (type x)).tokens)
    (h : facet lines a = .ok ls) :
    readLines ls = some (membersTokens (facetMember name optional type a)) := by
  cases a with
  | none => cases h; rfl
  | some x =>
      rw [hlines x rfl ls h, facetMember, membersTokens, membersTokens, List.append_nil]

theorem readLines_permitLines {options : Options} {permit : Permit} {lines : List String}
    (hfields : ∀ fields ∈ permit.containers, Identifiers fields)
    (hextended : ∀ schema ∈ permit.extended, Nameable schema)
    (h : permitLines options permit = .ok lines) :
    readLines lines = some (membersTokens (permitMembers options permit)) := by
  obtain ⟨filter, effect, hf, he, rfl⟩ := permitLines_eq_ok h
  have hfilter : readLines filter = some (membersTokens
      (facetMember "filter" options.filterOptional filterType permit.filter)) := by
    refine readLines_facet (fun f hp ls hls => readLines_filterLines (fun fields hmem => ?_) hls) hf
    exact hfields fields (List.mem_append_left _ (by rw [hp]; exact hmem))
  have heffect : readLines effect = some (membersTokens
      (facetMember "effect" false (fun fields => .record (membersOf fields)) permit.effect)) := by
    refine readLines_facet (fun fields hp ls hls => readLines_effectLines ?_ hls) he
    have hmem : fields ∈ permit.effect.toList := Option.mem_toList.2 hp
    exact hfields fields (List.mem_append_right _ hmem)
  have hextend : readLines (permit.extended.map extendLine).toList = some (membersTokens
      (facetMember "extend" false (fun schema => .named (extendTypeName schema))
        permit.extended)) := by
    cases hp : permit.extended with
    | none => rfl
    | some schema =>
        rw [Option.map_some, Option.toList_some, readLines_singleton,
          read_extendLine (hextended schema hp)]
        rfl
  rw [readLines_append, readLines_append, hfilter, heffect, hextend, permitMembers,
    membersTokens_append, membersTokens_append]
  rfl

theorem read_declaration {name : String} {lines : List String} {ms : List MemberTree}
    (hname : Nameable name) (h : readLines lines = some (membersTokens ms)) :
    read [] (declaration name lines).toList =
      some (DeclTree.mk (permitTypeName name) ms).tokens := by
  have hident : isIdentifier (permitTypeName name) :=
    isIdentifier_pascalCase_append hname (by decide)
  have hopen : read [] " = \x7b".toList = some [mark '=', mark '{'] := by decide
  have htyped : read [] ((permitTypeName name).toList ++ " = \x7b".toList) =
      some (word (permitTypeName name) :: [mark '=', mark '{']) :=
    read_word_cons hident (by decide) hopen
  have hhead : read [] ("export type " ++ permitTypeName name ++ " = \x7b").toList =
      some [word "export", word "type", word (permitTypeName name), mark '=', mark '{'] := by
    have hexport : isIdentifier "export" ∧ isIdentifier "type" := by decide
    have hstart : "export type ".toList = "export".toList ++ ' ' :: ("type".toList ++ [' ']) := by
      decide
    have htype : read [] ("type".toList ++ ' ' :: ((permitTypeName name).toList ++
        " = \x7b".toList)) = some [word "type", word (permitTypeName name), mark '=', mark '{'] :=
      read_word_cons hexport.2 (by decide) ((read_space _).trans htyped)
    simp only [String.toList_append, hstart, List.append_assoc, List.cons_append, List.nil_append]
    exact read_word_cons hexport.1 (by decide) ((read_space _).trans htype)
  have hlast : read [] "\x7d".toList = some [mark '}'] := by decide
  rw [declaration, read_joinLines, declarationLines, readLines_enclosed hhead h hlast]
  rfl

theorem readLines_permitBodies {options : Options} {permits : List (String × Permit)}
    {bodies : List (String × List String)} (hnames : ∀ e ∈ permits, Nameable e.1)
    (hfields : ∀ e ∈ permits, ∀ fields ∈ e.2.containers, Identifiers fields)
    (hextended : ∀ e ∈ permits, ∀ schema ∈ e.2.extended, Nameable schema)
    (h : permitBodies options permits = .ok bodies) :
    readLines (bodies.map fun b => declaration b.1 b.2) =
      some (declsTokens (permits.map (declTree options))) := by
  induction permits generalizing bodies with
  | nil => cases h; rfl
  | cons e permits ih =>
      obtain ⟨name, permit⟩ := e
      obtain ⟨lines, others, hl, ho, rfl⟩ := permitBodies_cons_eq_ok h
      obtain ⟨hname, hnames⟩ := List.forall_mem_cons.1 hnames
      obtain ⟨hfield, hfields⟩ := List.forall_mem_cons.1 hfields
      obtain ⟨hextend, hextended⟩ := List.forall_mem_cons.1 hextended
      have hmembers : readLines lines = some (membersTokens (permitMembers options permit)) :=
        readLines_permitLines hfield hextend hl
      rw [List.map_cons, readLines, read_declaration hname hmembers, ih hnames hfields hextended ho]
      rfl

/-- Read without regard to its layout, the text of a document consists of identifiers and marks
that derive from the grammar in exactly one way, and this derivation is what the document is meant
to declare. -/
theorem documentText_derives {options : Options} {document : Document} {text : String}
    (h : documentText options document = .ok text) (hd : Legible document) :
    ∃ ts, read [] text.toList = some ts ∧ (∀ name, word name ∈ ts → isIdentifier name) ∧
      ∀ ds, declsTokens ds = ts ↔ ds = declTrees options document := by
  obtain ⟨bodies, hb, htext⟩ := bind_eq_ok_iff.1 h
  obtain rfl := Except.ok.inj htext
  have hread : read [] (joinBlocks (bodies.map fun b => declaration b.1 b.2)).toList =
      some (declsTokens (declTrees options document)) := by
    rw [read_joinBlocks, readLines_permitBodies hd.permits hd.fields hd.extensions hb, declTrees]
  refine ⟨_, hread, ?_, ?_⟩
  · intro name hmem
    exact isIdentifier_of_mem_read (List.forall_mem_nil _) hread hmem
  · intro ds
    constructor
    · exact declsTokens_inj
    · rintro rfl
      rfl

/-- A union before another facet, and a list of objects in one of its branches. -/
def branched : Document where
  permits := [("user-role", {
    filter := some (.union [[], [("$ids", ⟨.object, true, true, some [("_1", .ofTag "uuid")]⟩)]])
    effect := some [("on", .ofTag "boolean")]
    extend := some "base.user" })]

def branchedText : String :=
  joinLines ["export type UserRoleMutatePermitType = \x7b", "  filter?:", "    | \x7b", "    \x7d",
    "    | \x7b", "      $ids?: Array<\x7b", "        _1: string", "      \x7d>", "    \x7d",
    "  effect: \x7b", "    on: boolean", "  \x7d", "  extend: BaseUserExtendType", "\x7d", ""]

theorem branched_derives :
    documentText ⟨true⟩ branched = .ok branchedText ∧ Legible branched ∧
      ∃ ts, read [] branchedText.toList = some ts ∧
        (∀ name, word name ∈ ts → isIdentifier name) ∧
        ∀ ds, declsTokens ds = ts ↔ ds =
          [⟨"UserRoleMutatePermitType",
            [.mk "filter" true (.union [] [
              [.mk "$ids" true (.array (.record [.mk "_1" false (.named "string")]))]]),
              .mk "effect" false (.record [.mk "on" false (.named "boolean")]),
              .mk "extend" false (.named "BaseUserExtendType")]⟩] := by
  have hok : (documentText ⟨true⟩ branched).toOption = some branchedText := by decide +kernel
  have htext : documentText ⟨true⟩ branched = .ok branchedText := by
    cases h : documentText ⟨true⟩ branched with
    | error failure => rw [h] at hok; cases hok
    | ok text => rw [h] at hok; exact congrArg _ (Option.some.inj hok)
  have hd : Legible branched := by
    refine ⟨List.forall_mem_singleton.2 ?_, List.forall_mem_singleton.2 ?_, ?_⟩
    · refine ⟨List.all_iff_forall_prop.1 (by decide), fun c hc => ?_⟩
      obtain rfl : 'u' = c := Option.some.inj hc
      decide
    · intro schema hschema
      obtain rfl : "base.user" = schema := Option.some.inj hschema
      refine ⟨List.all_iff_forall_prop.1 (by decide), fun c hc => ?_⟩
      obtain rfl : 'b' = c := Option.some.inj hc
      decide
    · refine List.forall_mem_singleton.2 (List.forall_mem_cons.2 ⟨trivial, ?_⟩)
      refine List.forall_mem_cons.2 ⟨⟨by decide, ⟨by decide, trivial, trivial⟩, trivial⟩, ?_⟩
      exact List.forall_mem_singleton.2 ⟨by decide, trivial, trivial⟩
  exact ⟨htext, hd, documentText_derives htext hd⟩

end PermitTypes.Emit
