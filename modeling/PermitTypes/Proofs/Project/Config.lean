import PermitTypes.Project.Config
import PermitTypes.Proofs.Schema.RoundTrip

namespace PermitTypes.Project.Config

open Json Json.Grammar Json.Meaning Schema Schema.Meaning

/-- The config that a value means. -/
def meaning (t : Raw) : Option Config := do
  let given ← parts ["srcDir", "outDir", "filterOptional"] t
  let sourceDir ← withDefault "src" string (given "srcDir")
  let outputDir ← withDefault none (nullable string) (given "outDir")
  let filterOptional ← withDefault false flag (given "filterOptional")
  return ⟨sourceDir, outputDir, filterOptional⟩

/-- How a part of a config changes it. -/
def setting (name : String) (t : Raw) : Option (Config → Config) :=
  if name = "srcDir" then (string t).map fun s c => { c with sourceDir := s }
  else if name = "outDir" then (nullable string t).map fun s c => { c with outputDir := s }
  else (flag t).map fun b c => { c with filterOptional := b }

theorem meaning_eq (t : Raw) : record.meaning setting t = meaning t := by
  refine Option.bind_congr fun given _ => ?_
  change (Record.assemble _ given ["srcDir", "outDir", "filterOptional"]
    ({} : Config)).bind some = _
  rw [Option.bind_fun_some]
  refine (Record.assemble_default (f := fun s (c : Config) => { c with sourceDir := s })
    (fun t => rfl) rfl).trans
    (Option.bind_congr fun s _ => ?_)
  refine (Record.assemble_default (f := fun o (c : Config) => { c with outputDir := o })
    (fun t => rfl) rfl).trans
    (Option.bind_congr fun o _ => ?_)
  exact Record.assemble_default (f := fun b (c : Config) => { c with filterOptional := b })
    (fun t => rfl) rfl

theorem meanings : record.Meanings setting setting where
  nodup := by
    change ["srcDir", "outDir", "filterOptional"].Nodup
    decide
  commute := by
    change ["srcDir", "outDir", "filterOptional"].Pairwise _
    simp only [List.pairwise_cons, List.forall_mem_cons, List.not_mem_nil, false_imp_iff,
      implies_true, and_true, List.Pairwise.nil]
    refine ⟨⟨?_, ?_⟩, ?_⟩
    all_goals
      refine Record.Commute.of_map (fun _ => rfl) (fun _ => rfl) ?_
      intro _ _ _
      rfl
  reads := by
    simp only [record, List.forall_mem_cons]
    exact ⟨string_reads.map _, string_reads.nullable.map _, flag_reads.map _, List.forall_mem_nil _⟩

theorem reads : Reads reader meaning meaning := by
  have hreads := Record.reads meanings
  rwa [funext meaning_eq] at hreads

theorem parse_eq_ok_iff {source : String} {c : Config} :
    parse source = .ok c ↔ ∃ t, Text source.toList t ∧ meaning t = some c :=
  reads.read_eq_ok_iff

def members (c : Config) : List (String × Tree) :=
  optionMember "srcDir" Tree.string (some c.sourceDir) ++
    (optionMember "outDir" Tree.string c.outputDir ++
      optionMember "filterOptional" Tree.bool (some c.filterOptional))

theorem encode_eq (c : Config) : c.encode = .object c.members := by
  rw [encode, List.append_assoc]
  rfl

theorem names_members_sublist (c : Config) :
    (Entries.names c.members).Sublist ["srcDir", "outDir", "filterOptional"] := by
  simp only [members, Entries.names_append]
  exact (names_optionMember_sublist "srcDir" Tree.string (some c.sourceDir)).append
    ((names_optionMember_sublist "outDir" Tree.string c.outputDir).append
      (names_optionMember_sublist "filterOptional" Tree.bool (some c.filterOptional)))

theorem lexical_encode (c : Config) : c.encode.Lexical := by
  have houtput : Tree.LexicalMembers (optionMember "outDir" Tree.string c.outputDir) := by
    apply lexical_optionMember
    intro _ _
    trivial
  rw [encode_eq]
  refine Tree.lexicalMembers_append ?_ (Tree.lexicalMembers_append houtput ?_)
  · exact ⟨trivial, trivial⟩
  · exact ⟨trivial, trivial⟩

/-- A config that has been written means what it was. -/
theorem meaning_encode (c : Config) : meaning c.encode.raw = some c := by
  have hsource : withDefault "src" string
      (((optionMember "srcDir" Tree.string (some c.sourceDir)).lookup "srcDir").map Tree.raw) =
        some c.sourceDir := by
    rw [lookup_optionMember]
    exact text?_points c.sourceDir
  have houtput : withDefault none (nullable string)
      (((optionMember "outDir" Tree.string c.outputDir).lookup "outDir").map Tree.raw) =
        some c.outputDir := by
    rw [lookup_optionMember]
    cases c.outputDir with
    | none => rfl
    | some s => exact congrArg (Option.map some) (text?_points s)
  have hfilter : withDefault false flag
      (((optionMember "filterOptional" Tree.bool (some c.filterOptional)).lookup
        "filterOptional").map Tree.raw) = some c.filterOptional := by
    rw [lookup_optionMember]
    rfl
  rw [encode_eq, meaning, Tree.raw, parts_rawMembers (by decide) c.names_members_sublist]
  simp (disch := decide) only [members, Option.bind_eq_bind, Option.bind_some,
    List.lookup_append, lookup_optionMember_of_ne, Option.or_none, Option.none_or, hsource,
    houtput, hfilter]
  rfl

/-- Whatever its texts hold, a config reads back from what is written of it. -/
theorem parse_prettyText (c : Config) : parse c.encode.prettyText = .ok c := by
  have hvalue : Value c.encode.prettyText.toList c.encode.raw [] := by
    rw [Tree.prettyText, String.toList_ofList]
    exact Tree.value_prettyOnto c.encode c.lexical_encode 0 []
  rw [parse_eq_ok_iff]
  refine ⟨c.encode.raw, text_iff.2 ⟨[], ?_, rfl⟩, c.meaning_encode⟩
  rwa [hvalue.skipSpace_eq]

end PermitTypes.Project.Config
