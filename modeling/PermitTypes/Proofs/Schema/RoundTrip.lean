import PermitTypes.Proofs.Schema.Encoding

namespace PermitTypes.Schema

open Json Json.Grammar Json.Meaning

namespace Meaning

section

variable {α : Type} {meaning : Raw → Option α}

theorem exists_of_nullable {given : Option Raw} {o : Option α}
    (h : withDefault none (nullable meaning) given = some o) : ∀ a ∈ o, ∃ t, meaning t = some a := by
  intro a ha
  cases given with
  | none =>
      obtain rfl := Option.some.inj h
      cases ha
  | some t =>
      by_cases ht : t = .null
      · subst ht
        obtain rfl := Option.some.inj h
        cases ha
      · refine ⟨t, ?_⟩
        have hm := (Reads.nullable_of_ne ht meaning).symm.trans h
        obtain ⟨b, hb, rfl⟩ := Option.map_eq_some_iff.1 hm
        rw [hb, Option.some.inj ha]

theorem mem_of_mapM {ι : Type} {f : ι → Option α} {items : List ι} {as : List α}
    (h : items.mapM f = some as) : ∀ a ∈ as, ∃ i ∈ items, f i = some a := by
  induction items generalizing as with
  | nil =>
      obtain rfl : [] = as := Option.some.inj h
      exact fun _ ha => nomatch ha
  | cons i items ih =>
      rw [List.mapM_cons] at h
      obtain ⟨b, hb, h⟩ := Option.bind_eq_some_iff.1 h
      obtain ⟨bs, hbs, h⟩ := Option.bind_eq_some_iff.1 h
      obtain rfl := Option.some.inj h
      intro a ha
      rcases List.mem_cons.1 ha with rfl | ha
      · exact ⟨i, List.mem_cons_self, hb⟩
      · obtain ⟨j, hj, hf⟩ := ih hbs a ha
        exact ⟨j, List.mem_cons_of_mem _ hj, hf⟩

theorem exists_of_elements {t : Raw} {as : List α} (h : elements meaning t = some as) :
    ∀ a ∈ as, ∃ t', meaning t' = some a := by
  cases t with
  | array ts =>
      intro a ha
      obtain ⟨t', -, ht'⟩ := mem_of_mapM h a ha
      exact ⟨t', ht'⟩
  | _ => cases h

theorem exists_of_entries {t : Raw} {es : List (String × α)} (h : entries meaning t = some es) :
    (Entries.names es).Nodup ∧ ∀ e ∈ es, ∃ t', meaning t' = some e.2 := by
  cases t with
  | object ms =>
      rw [entries_object] at h
      obtain ⟨items, -, h⟩ := Option.bind_eq_some_iff.1 h
      obtain ⟨values, hvalues, rfl⟩ := Option.map_eq_some_iff.1 h
      rw [lastValues_eq_puts]
      have hnil : (Entries.names ([] : List (String × α))).Nodup := List.nodup_nil
      refine ⟨Entries.nodup_names_puts hnil values, fun e he => ?_⟩
      obtain ⟨m, -, hm⟩ := mem_of_mapM hvalues e (Entries.mem_of_mem_puts he)
      obtain ⟨a, ha, rfl⟩ := Option.map_eq_some_iff.1 hm
      exact ⟨m.2, ha⟩
  | _ => cases h

theorem memberDepth_le {room : Nat} {ms : List (String × Tree)}
    (h : ∀ m ∈ ms, m.2.raw.depth ≤ room) : memberDepth ms ≤ room := by
  induction ms with
  | nil => exact Nat.zero_le room
  | cons m ms ih =>
      exact Nat.max_le.2 ⟨h m List.mem_cons_self, ih fun m' hm => h m' (List.mem_cons_of_mem _ hm)⟩

theorem memberDepth_optionMember_le {room : Nat} {encode : α → Tree} {o : Option α}
    (name : String) (h : ∀ a ∈ o, (encode a).raw.depth ≤ room) :
    memberDepth (optionMember name encode o) ≤ room := by
  cases o with
  | none => exact Nat.zero_le room
  | some a =>
      rw [memberDepth_optionMember_some]
      exact h a rfl

end

theorem property_eq_some {room : Nat} {t : Raw} {p : Property}
    (h : property (room + 1) t = some p) :
    p.kind.Genuine ∧ ∀ nested ∈ p.fields, ∃ t', fields room t' = some nested := by
  obtain ⟨given, -, h⟩ := Option.bind_eq_some_iff.1 h
  obtain ⟨tag, -, h⟩ := Option.bind_eq_some_iff.1 h
  obtain ⟨optional, -, h⟩ := Option.bind_eq_some_iff.1 h
  obtain ⟨list, -, h⟩ := Option.bind_eq_some_iff.1 h
  obtain ⟨nested, hnested, h⟩ := Option.bind_eq_some_iff.1 h
  obtain rfl := Option.some.inj h
  exact ⟨Kind.genuine_ofTag tag, exists_of_nullable hnested⟩

/-- What has been read of nested fields. -/
structure Held (room : Nat) (fs : Fields) : Prop where
  distinct : fs.Distinct
  genuine : fs.Genuine
  depth : (Fields.encode fs).raw.depth ≤ room

/-- The same of a property. -/
structure PropertyHeld (room : Nat) (p : Property) : Prop where
  distinct : p.Each fun p => ∀ nested ∈ p.fields, (Entries.names nested).Nodup
  genuine : p.Each fun p => p.kind.Genuine
  depth : p.encode.raw.depth ≤ room

theorem propertyHeld_of_held {room : Nat} {p : Property} (hkind : p.kind.Genuine)
    (h : ∀ nested ∈ p.fields, Held room nested) : PropertyHeld (room + 1) p := by
  have hdepth := memberDepth_optionMember_le "property" fun nested hn => (h nested hn).depth
  rw [← memberDepth_propertyMembers] at hdepth
  obtain ⟨kind, optional, list, nested⟩ := p
  refine ⟨?_, ?_, ?_⟩
  · cases nested with
    | none =>
        intro fs hfs
        cases hfs
    | some nested =>
        have hdistinct := (h nested rfl).distinct
        refine ⟨fun fs hfs => ?_, hdistinct.2⟩
        obtain rfl := Option.some.inj hfs
        exact hdistinct.1
  · cases nested with
    | none => exact hkind
    | some nested => exact ⟨hkind, (h nested rfl).genuine⟩
  · rw [property_encode_eq, depth_object]
    exact Nat.succ_le_succ hdepth

theorem held_of_propertyHeld {room : Nat} {fs : Fields} (hnodup : (Entries.names fs).Nodup)
    (h : ∀ e ∈ fs, PropertyHeld room e.2) : Held (room + 1) fs := by
  refine ⟨⟨hnodup, ?_⟩, ?_, ?_⟩
  · exact Fields.each_iff.2 fun e he => (h e he).distinct
  · exact Fields.each_iff.2 fun e he => (h e he).genuine
  · rw [Fields.encode, Fields.encodeMembers_eq_map, depth_object]
    refine Nat.succ_le_succ (memberDepth_le fun m hm => ?_)
    obtain ⟨e, he, rfl⟩ := List.mem_map.1 hm
    exact (h e he).depth

theorem property_held_and_fields_held (room : Nat) :
    (∀ t p, property room t = some p → PropertyHeld room p) ∧
      ∀ t fs, fields room t = some fs → Held room fs := by
  induction room with
  | zero => exact ⟨fun _ _ h => (nomatch h), fun _ _ h => (nomatch h)⟩
  | succ room ih =>
      refine ⟨fun t p h => ?_, fun t fs h => ?_⟩
      · obtain ⟨hkind, hnested⟩ := property_eq_some h
        refine propertyHeld_of_held hkind fun nested hmem => ?_
        obtain ⟨t', ht'⟩ := hnested nested hmem
        exact ih.2 t' nested ht'
      · obtain ⟨hnodup, heach⟩ := exists_of_entries h
        refine held_of_propertyHeld hnodup fun e he => ?_
        obtain ⟨t', ht'⟩ := heach e he
        exact ih.1 t' e.2 ht'

theorem fields_held {room : Nat} {t : Raw} {fs : Fields} (h : fields room t = some fs) :
    Held room fs :=
  (property_held_and_fields_held room).2 t fs h

theorem elementsDepth_le {α : Type} {room : Nat} {encode : α → Tree} {as : List α}
    (h : ∀ a ∈ as, (encode a).raw.depth ≤ room) :
    Raw.elementsDepth (Tree.rawElements (as.map encode)) ≤ room := by
  induction as with
  | nil => exact Nat.zero_le room
  | cons a as ih =>
      exact Nat.max_le.2 ⟨h a List.mem_cons_self, ih fun b hb => h b (List.mem_cons_of_mem _ hb)⟩

theorem filter_held {room : Nat} {t : Raw} {f : Filter} (h : filter room t = some f) :
    (∀ fs ∈ f.containers, fs.Distinct ∧ fs.Genuine) ∧ f.encode.raw.depth ≤ room := by
  have hshape : ∀ t, (fields room t).map Filter.shape = some f →
      (∀ fs ∈ f.containers, fs.Distinct ∧ fs.Genuine) ∧ f.encode.raw.depth ≤ room := by
    intro t h
    obtain ⟨fs, hfs, rfl⟩ := Option.map_eq_some_iff.1 h
    have hheld := fields_held hfs
    refine ⟨fun fs' hmem => ?_, hheld.depth⟩
    obtain rfl := List.mem_singleton.1 hmem
    exact ⟨hheld.distinct, hheld.genuine⟩
  cases room with
  | zero => cases h
  | succ room =>
      cases t with
      | array ts =>
          obtain ⟨shapes, hshapes, rfl⟩ := Option.map_eq_some_iff.1 h
          have hheld : ∀ fs ∈ shapes, Held room fs := by
            intro fs hmem
            obtain ⟨t', ht'⟩ := exists_of_elements hshapes fs hmem
            exact fields_held ht'
          refine ⟨fun fs hmem => ⟨(hheld fs hmem).distinct, (hheld fs hmem).genuine⟩, ?_⟩
          exact Nat.succ_le_succ (elementsDepth_le fun fs hmem => (hheld fs hmem).depth)
      | object ms => exact hshape (.object ms) h
      | _ => cases h

theorem permit_held {room : Nat} {t : Raw} {p : Permit} (h : permit room t = some p) :
    (∀ fs ∈ p.containers, fs.Distinct ∧ fs.Genuine) ∧ p.encode.raw.depth ≤ room := by
  cases room with
  | zero => cases h
  | succ room =>
      obtain ⟨given, -, h⟩ := Option.bind_eq_some_iff.1 h
      obtain ⟨f, hf, h⟩ := Option.bind_eq_some_iff.1 h
      obtain ⟨e, he, h⟩ := Option.bind_eq_some_iff.1 h
      obtain ⟨s, -, h⟩ := Option.bind_eq_some_iff.1 h
      obtain rfl := Option.some.inj h
      have hfilter : ∀ f' ∈ f, (∀ fs ∈ f'.containers, fs.Distinct ∧ fs.Genuine) ∧
          f'.encode.raw.depth ≤ room := by
        intro f' hf'
        obtain ⟨t', ht'⟩ := exists_of_nullable hf f' hf'
        exact filter_held ht'
      have heffect : ∀ fs ∈ e, Held room fs := by
        intro fs hfs
        obtain ⟨t', ht'⟩ := exists_of_nullable he fs hfs
        exact fields_held ht'
      constructor
      · intro fs hmem
        rcases List.mem_append.1 hmem with hmem | hmem
        · cases f with
          | none => cases hmem
          | some f => exact (hfilter f rfl).1 fs hmem
        · have hheld := heffect fs (Option.mem_toList.1 hmem)
          exact ⟨hheld.distinct, hheld.genuine⟩
      · rw [permit_encode_eq, depth_object]
        refine Nat.succ_le_succ ?_
        simp only [permitMembers, memberDepth_append]
        refine Nat.max_le.2 ⟨?_, Nat.max_le.2 ⟨?_, ?_⟩⟩
        · exact memberDepth_optionMember_le "filter" fun f' hf' => (hfilter f' hf').2
        · exact memberDepth_optionMember_le "effect" fun fs hfs => (heffect fs hfs).depth
        · exact memberDepth_optionMember_le "extend" fun _ _ => Nat.zero_le room

theorem permits_held {room : Nat} {t : Raw} {ps : List (String × Permit)}
    (h : permits room t = some ps) :
    (Entries.names ps).Nodup ∧
      (∀ e ∈ ps, ∀ fs ∈ e.2.containers, fs.Distinct ∧ fs.Genuine) ∧
      (encodePermits ps).raw.depth ≤ room := by
  cases room with
  | zero => cases h
  | succ room =>
      obtain ⟨hnodup, heach⟩ := exists_of_entries h
      have hheld : ∀ e ∈ ps, (∀ fs ∈ e.2.containers, fs.Distinct ∧ fs.Genuine) ∧
          e.2.encode.raw.depth ≤ room := by
        intro e he
        obtain ⟨t', ht'⟩ := heach e he
        exact permit_held ht'
      refine ⟨hnodup, fun e he => (hheld e he).1, ?_⟩
      rw [encodePermits, depth_object]
      refine Nat.succ_le_succ (memberDepth_le fun m hm => ?_)
      obtain ⟨e, he, rfl⟩ := List.mem_map.1 hm
      exact (hheld e he).2

/-- A document that has been read has distinct names and genuine kinds, and is written with no more
brackets open at once than there was room for. -/
theorem document_held {room : Nat} (hroom : 2 ≤ room) {t : Raw} {d : Document}
    (h : document room t = some d) : d.Distinct ∧ d.Genuine ∧ d.encode.raw.depth ≤ room := by
  cases room with
  | zero => cases h
  | succ room =>
      obtain ⟨given, -, h⟩ := Option.bind_eq_some_iff.1 h
      obtain ⟨b, -, h⟩ := Option.bind_eq_some_iff.1 h
      obtain ⟨ps, hps, h⟩ := Option.bind_eq_some_iff.1 h
      obtain rfl := Option.some.inj h
      have hheld : (Entries.names ps).Nodup ∧
          (∀ e ∈ ps, ∀ fs ∈ e.2.containers, fs.Distinct ∧ fs.Genuine) ∧
          (encodePermits ps).raw.depth ≤ room := by
        cases hgiven : given "permit" with
        | none =>
            rw [hgiven] at hps
            obtain rfl : [] = ps := Option.some.inj hps
            exact ⟨List.nodup_nil, fun _ he => (nomatch he), Nat.le_of_succ_le_succ hroom⟩
        | some t' =>
            rw [hgiven] at hps
            exact permits_held hps
      obtain ⟨hnodup, heach, hdepth⟩ := hheld
      refine ⟨⟨hnodup, fun e he fs hfs => (heach e he fs hfs).1⟩,
        fun e he fs hfs => (heach e he fs hfs).2, ?_⟩
      rw [document_encode_eq, depth_object, documentMembers, memberDepth_append,
        memberDepth_optionMember_some, memberDepth_optionMember_some]
      exact Nat.succ_le_succ (Nat.max_le.2 ⟨Nat.le_of_succ_le_succ hroom, hdepth⟩)

end Meaning

/-- How a tree is laid out as a text. -/
inductive Layout where
  | compact
  | pretty

def Document.write (layout : Layout) (d : Document) : String :=
  match layout with
  | .compact => d.encode.compactText
  | .pretty => d.encode.prettyText

theorem lexical_flagMember (name : String) (b : Bool) :
    Tree.LexicalMembers (flagMember name b) := by
  cases b with
  | true => exact ⟨trivial, trivial⟩
  | false => trivial

theorem lexical_optionMember {α : Type} {encode : α → Tree} {o : Option α} (name : String)
    (h : ∀ a ∈ o, (encode a).Lexical) : Tree.LexicalMembers (optionMember name encode o) := by
  cases o with
  | none => trivial
  | some a => exact ⟨h a rfl, trivial⟩

theorem lexical_property {p : Property} (h : ∀ fs ∈ p.fields, (Fields.encode fs).Lexical) :
    p.encode.Lexical := by
  rw [Meaning.property_encode_eq]
  exact Tree.lexicalMembers_append (lexical_optionMember "type" fun _ _ => trivial)
    (Tree.lexicalMembers_append (lexical_flagMember "optional" p.optional)
      (Tree.lexicalMembers_append (lexical_flagMember "list" p.list)
        (lexical_optionMember "property" h)))

mutual

theorem Property.lexical_encode (p : Property) : p.encode.Lexical := by
  match p with
  | ⟨kind, optional, list, none⟩ => exact lexical_property fun _ h => (nomatch h)
  | ⟨kind, optional, list, some fs⟩ =>
      refine lexical_property fun fs' h => ?_
      obtain rfl := Option.some.inj h
      exact Fields.lexical_encodeMembers fs

theorem Fields.lexical_encodeMembers (fs : List (String × Property)) :
    Tree.LexicalMembers (Fields.encodeMembers fs) := by
  match fs with
  | [] => trivial
  | (_, p) :: fs => exact ⟨p.lexical_encode, Fields.lexical_encodeMembers fs⟩

end

theorem Fields.lexical_encode (fs : Fields) : (Fields.encode fs).Lexical :=
  Fields.lexical_encodeMembers fs

theorem Filter.lexical_encode (f : Filter) : f.encode.Lexical := by
  cases f with
  | shape fs => exact fs.lexical_encode
  | union shapes =>
      have hall : ∀ t ∈ shapes.map Fields.encode, t.Lexical := by
        intro t ht
        obtain ⟨fs, -, rfl⟩ := List.mem_map.1 ht
        exact fs.lexical_encode
      exact Tree.lexicalElements_iff.2 hall

theorem Permit.lexical_encode (p : Permit) : p.encode.Lexical := by
  rw [Meaning.permit_encode_eq]
  exact Tree.lexicalMembers_append (lexical_optionMember "filter" fun f _ => f.lexical_encode)
    (Tree.lexicalMembers_append (lexical_optionMember "effect" fun fs _ => fs.lexical_encode)
      (lexical_optionMember "extend" fun _ _ => trivial))

theorem lexical_encodePermits (permits : List (String × Permit)) :
    (Meaning.encodePermits permits).Lexical := by
  have hall : ∀ m ∈ permits.map fun e => (e.1, e.2.encode), m.2.Lexical := by
    intro m hm
    obtain ⟨e, -, rfl⟩ := List.mem_map.1 hm
    exact e.2.lexical_encode
  exact Tree.lexicalMembers_iff.2 hall

theorem Document.lexical_encode (d : Document) : d.encode.Lexical := by
  rw [Meaning.document_encode_eq]
  exact Tree.lexicalMembers_append (lexical_optionMember "base" fun _ _ => ⟨trivial, trivial⟩)
    (lexical_optionMember "permit" fun permits _ => lexical_encodePermits permits)

theorem text_write (layout : Layout) (d : Document) :
    Value (d.write layout).toList d.encode.raw [] := by
  cases layout with
  | compact =>
      rw [Document.write, Tree.compactText, String.toList_ofList]
      exact Tree.value_compactOnto d.encode d.lexical_encode []
  | pretty =>
      rw [Document.write, Tree.prettyText, String.toList_ofList]
      exact Tree.value_prettyOnto d.encode d.lexical_encode 0 []

theorem openAtOnce_write (layout : Layout) (d : Document) :
    openAtOnce (d.write layout) = d.encode.raw.depth := by
  rw [openAtOnce, (text_write layout d).most_eq, Nat.zero_add]
  exact Nat.max_eq_left (Nat.zero_le _)

theorem parse_of_answers {source : String} {d : Document} {meaning : Option Document}
    (h : Answers meaning [] ((Decode.document Decode.depthLimit).run source.toList)) :
    (meaning = some d → Document.parse source = .ok d) ∧
      (meaning = none → ∃ place, Document.parse source = .error ⟨.tooDeep, place⟩) := by
  constructor
  · rintro rfl
    exact parse_eq_ok.2 ⟨[], h, rfl⟩
  · rintro rfl
    obtain ⟨left, hleft⟩ := h
    refine ⟨Fault.place ⟨.tooDeep, left⟩ source.toList, ?_⟩
    simp only [Document.parse, Reader.read, Reader.readAll, hleft]
    rfl

theorem answers_write {d : Document} (hd : d.Distinct) (hg : d.Genuine) (layout : Layout)
    (room : Nat) : Answers (Meaning.fit room d.encode.raw.depth d) []
      ((Decode.document room).run (d.write layout).toList) := by
  have hvalue := text_write layout d
  have hskip : Value (skipSpace (d.write layout).toList) d.encode.raw [] := by
    rwa [hvalue.skipSpace_eq]
  have hmeans := Meaning.document_encode hd hg
  have hreads := Meaning.document_reads (Nat.le_max_left room d.encode.raw.depth)
  have hever : Meaning.document (max room d.encode.raw.depth) d.encode.raw = some d := by
    rw [hmeans]
    exact if_pos (Nat.le_max_right ..)
  have hrest : Delimited [] := fun _ h => (nomatch h)
  rw [← hmeans]
  exact hreads.answers hskip hrest hever

theorem parse_write {d : Document} (hd : d.Distinct) (hg : d.Genuine) (layout : Layout) :
    (openAtOnce (d.write layout) ≤ Decode.depthLimit → Document.parse (d.write layout) = .ok d) ∧
      (Decode.depthLimit < openAtOnce (d.write layout) →
        ∃ place, Document.parse (d.write layout) = .error ⟨.tooDeep, place⟩) := by
  have hparse := parse_of_answers (d := d) (answers_write hd hg layout Decode.depthLimit)
  rw [openAtOnce_write]
  exact ⟨fun h => hparse.1 (if_pos h), fun h => hparse.2 (Meaning.fit_of_lt h d)⟩

/-- Reading undoes writing for the documents that can be held, down to a depth of brackets, and
whatever has been read is among these documents. -/
theorem parse_undoes_write :
    (∀ (d : Document) (layout : Layout), d.Distinct → d.Genuine →
      (openAtOnce (d.write layout) ≤ Decode.depthLimit →
        Document.parse (d.write layout) = .ok d) ∧
      (Decode.depthLimit < openAtOnce (d.write layout) →
        ∃ place, Document.parse (d.write layout) = .error ⟨.tooDeep, place⟩)) ∧
    ∀ (source : String) (d : Document), Document.parse source = .ok d →
      d.Distinct ∧ d.Genuine ∧ ∀ layout : Layout,
        openAtOnce (d.write layout) ≤ Decode.depthLimit ∧
        Document.parse (d.write layout) = .ok d ∧
        (Document.parse (d.write layout)).map (·.write layout) = .ok (d.write layout) := by
  refine ⟨fun d layout hd hg => parse_write hd hg layout, fun source d h => ?_⟩
  obtain ⟨t, -, ht⟩ := means_of_parse h
  obtain ⟨hd, hg, hdepth⟩ := Meaning.document_held (by decide) ht
  refine ⟨hd, hg, fun layout => ?_⟩
  rw [← openAtOnce_write layout] at hdepth
  have hparse := (parse_write hd hg layout).1 hdepth
  exact ⟨hdepth, hparse, by rw [hparse]; rfl⟩

/-- Names that need escapes, a tag that means nothing, and what is empty but not absent. -/
def oddities : Document where
  base := ⟨"\u0000 \"\\\" \n"⟩
  permits := [
    ("", ⟨some (.union [[], [("😀", ⟨.unknown "", true, false, some []⟩)]]), some [], some ""⟩),
    ("\x7b", ⟨some (.shape []), none, none⟩)]

theorem oddities_written_and_parsed :
    (oddities.Distinct ∧ oddities.Genuine) ∧
      openAtOnce (oddities.write .pretty) ≤ Decode.depthLimit ∧
      Document.parse (oddities.write .pretty) = .ok oddities ∧
      Document.parse (oddities.write .compact) = .ok oddities := by
  have hd : oddities.Distinct := by
    refine ⟨by decide, ?_⟩
    simp [oddities, Permit.containers, Filter.containers, Fields.Distinct, Fields.Each,
      Property.Each, Entries.names, or_imp, forall_and]
  have hg : oddities.Genuine := by
    simp [Document.Genuine, oddities, Permit.containers, Filter.containers, Fields.Genuine,
      Fields.Each, Property.Each, Kind.Genuine, Kind.known, Kind.tag, or_imp, forall_and]
  have hopen : openAtOnce (oddities.write .pretty) ≤ Decode.depthLimit := by
    rw [openAtOnce_write]
    decide
  have hparse := (parse_undoes_write.1 oddities .pretty hd hg).1 hopen
  exact ⟨⟨hd, hg⟩, hopen, hparse, ((parse_undoes_write.2 _ _ hparse).2.2 .compact).2.1⟩

end PermitTypes.Schema
