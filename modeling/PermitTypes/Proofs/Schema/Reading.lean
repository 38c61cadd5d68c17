import PermitTypes.Proofs.Json.Records
import PermitTypes.Proofs.Schema.Meaning
import PermitTypes.Schema.Decode

namespace PermitTypes.Schema.Meaning

open Json Json.Grammar Json.Meaning

/-- How the parts of a property change its draft. -/
def propertyParts (nested : Raw → Option Fields) (name : String) (t : Raw) :
    Option (Decode.PropertyDraft → Decode.PropertyDraft) :=
  if name = "type" then ((string t).map Kind.ofTag).map fun k d => { d with kind := some k }
  else if name = "optional" then (flag t).map fun b d => { d with optional := b }
  else if name = "list" then (flag t).map fun b d => { d with list := b }
  else (nullable nested t).map fun fs d => { d with fields := fs }

def permitParts (filter : Raw → Option Filter) (effect : Raw → Option Fields) (name : String)
    (t : Raw) : Option (Permit → Permit) :=
  if name = "filter" then (nullable filter t).map fun f p => { p with filter := f }
  else if name = "effect" then (nullable effect t).map fun e p => { p with effect := e }
  else (nullable string t).map fun s p => { p with extend := s }

def baseParts (_ : String) (t : Raw) : Option (Base → Base) :=
  (string t).map fun s b => { b with name := s }

def documentParts (base : Raw → Option Base) (permits : Raw → Option (List (String × Permit)))
    (name : String) (t : Raw) : Option (Document → Document) :=
  if name = "base" then (base t).map fun b d => { d with base := b }
  else (permits t).map fun ps d => { d with permits := ps }

theorem assemble_property (nested : Raw → Option Fields) (given : String → Option Raw) :
    Record.assemble (propertyParts nested) given ["type", "optional", "list", "property"] {} =
      (withDefault none (fun t => ((string t).map Kind.ofTag).map some) (given "type")).bind fun k =>
        (withDefault false flag (given "optional")).bind fun o =>
          (withDefault false flag (given "list")).bind fun l =>
            (withDefault none (nullable nested) (given "property")).bind fun fs =>
              some ⟨k, o, l, fs⟩ := by
  have htype : ∀ t, propertyParts nested "type" t =
      (((string t).map Kind.ofTag).map some).map fun k d => { d with kind := k } := by
    intro t
    rw [Option.map_map]
    rfl
  rw [Record.assemble_default htype rfl]
  refine Option.bind_congr fun k _ => ?_
  rw [Record.assemble_default (f := fun o d => { d with optional := o }) (fun t => rfl) rfl]
  refine Option.bind_congr fun o _ => ?_
  rw [Record.assemble_default (f := fun l d => { d with list := l }) (fun t => rfl) rfl]
  refine Option.bind_congr fun l _ => ?_
  rw [Record.assemble_default (f := fun fs d => { d with fields := fs }) (fun t => rfl) rfl]
  rfl

theorem property_eq (r : Reader Fields) (room : Nat) (t : Raw) :
    (Decode.propertyRecord r).meaning (propertyParts (fields room)) t = property (room + 1) t := by
  refine Option.bind_congr fun given _ => ?_
  change (Record.assemble _ given ["type", "optional", "list", "property"]
    ({} : Decode.PropertyDraft)).bind _ = _
  rw [assemble_property]
  cases given "type" with
  | none =>
      have hfinish : ∀ o l fs, ((Decode.propertyRecord r).finish ⟨none, o, l, fs⟩).toOption = none :=
        fun _ _ _ => rfl
      simp only [withDefault, Option.bind_assoc, Option.bind_some, hfinish, Option.bind_fun_none]
      rfl
  | some t =>
      simp only [withDefault, Option.bind_some, Option.bind_assoc]
      cases string t with
      | none => rfl
      | some tag => rfl

theorem permit_eq (inner room : Nat) (t : Raw) :
    (Decode.permitRecord inner).meaning (permitParts (filter room) (fields room)) t =
      permit (room + 1) t := by
  refine Option.bind_congr fun given _ => ?_
  change (Record.assemble _ given ["filter", "effect", "extend"] ({} : Permit)).bind some = _
  rw [Option.bind_fun_some]
  refine (Record.assemble_default (f := fun f (p : Permit) => { p with filter := f })
    (fun t => rfl) rfl).trans
    (Option.bind_congr fun f _ => ?_)
  refine (Record.assemble_default (f := fun e (p : Permit) => { p with effect := e })
    (fun t => rfl) rfl).trans
    (Option.bind_congr fun e _ => ?_)
  exact Record.assemble_default (f := fun s (p : Permit) => { p with extend := s })
    (fun t => rfl) rfl

theorem base_eq (room : Nat) (t : Raw) :
    Decode.baseRecord.meaning baseParts t = base (room + 1) t := by
  refine Option.bind_congr fun given _ => ?_
  change (Record.assemble _ given ["name"] ({} : Base)).bind some = _
  rw [Option.bind_fun_some]
  exact Record.assemble_default (f := fun s (b : Base) => { b with name := s })
    (fun t => rfl) rfl

theorem document_eq (inner room : Nat) (t : Raw) :
    (Decode.documentRecord inner).meaning (documentParts (base room) (permits room)) t =
      document (room + 1) t := by
  refine Option.bind_congr fun given _ => ?_
  change (Record.assemble _ given ["base", "permit"] ({} : Document)).bind some = _
  rw [Option.bind_fun_some]
  refine (Record.assemble_default (f := fun b (d : Document) => { d with base := b })
    (fun t => rfl) rfl).trans
    (Option.bind_congr fun b _ => ?_)
  exact Record.assemble_default (f := fun ps (d : Document) => { d with permits := ps })
    (fun t => rfl) rfl

theorem string_reads : Reads Decode.string string string := by
  have hmeans : stringForm.Means string :=
    ⟨rfl, fun _ => rfl, fun _ => rfl, fun _ => (Option.bind_fun_some _).symm⟩
  refine Form.reads id hmeans hmeans (fun ht => ?_) (fun ht => ?_)
  · obtain ⟨ts, rfl⟩ := exists_array_of_value ht
    rfl
  · obtain ⟨ms, rfl⟩ := exists_object_of_value ht
    rfl

theorem flag_reads : Reads Decode.flag flag flag := by
  have hmeans : boolForm.Means flag :=
    ⟨rfl, fun _ => rfl, fun _ => rfl, fun _ => (Option.bind_fun_none _).symm⟩
  refine Form.reads id hmeans hmeans (fun ht => ?_) (fun ht => ?_)
  · obtain ⟨ts, rfl⟩ := exists_array_of_value ht
    rfl
  · obtain ⟨ms, rfl⟩ := exists_object_of_value ht
    rfl

section

variable {α : Type} {r : Reader α} {D E : Raw → Option α}

theorem mapForm_reads (h : Reads r D E) :
    Reads (Decode.mapForm r).reader (entries D) (entries E) := by
  have hmeans : ∀ D : Raw → Option α, (Decode.mapForm r).Means (entries D) := fun D =>
    Form.Bracketed.means ⟨rfl, fun _ => rfl, fun _ => rfl, fun _ => rfl⟩ rfl rfl
  refine Form.reads (entries_below h.below) (hmeans D) (hmeans E) (fun ht => ?_) h.mapMembers
  obtain ⟨ts, rfl⟩ := exists_array_of_value ht
  rfl

theorem closedMapForm_reads {E : Raw → Option (List (String × α))} (hE : Form.Bracketed E)
    (harray : ∀ ts, E (.array ts) = none) :
    Reads Decode.closedMapForm.reader (fun _ => none) E := by
  refine Form.reads (fun h => nomatch h)
    (Form.Bracketed.means ⟨rfl, fun _ => rfl, fun _ => rfl, fun _ => rfl⟩ rfl rfl)
    (hE.means rfl rfl) (fun ht => ?_) (fun _ => rfl)
  obtain ⟨ts, rfl⟩ := exists_array_of_value ht
  exact harray ts

end

theorem property_meanings {r : Reader Fields} {F G : Raw → Option Fields} (h : Reads r F G) :
    (Decode.propertyRecord r).Meanings (propertyParts F) (propertyParts G) where
  nodup := by
    change ["type", "optional", "list", "property"].Nodup
    decide
  commute := by
    change ["type", "optional", "list", "property"].Pairwise _
    simp only [List.pairwise_cons, List.forall_mem_cons, List.not_mem_nil, false_imp_iff,
      implies_true, and_true, List.Pairwise.nil]
    refine ⟨⟨?_, ?_, ?_⟩, ⟨?_, ?_⟩, ?_⟩
    all_goals
      refine Record.Commute.of_map (fun _ => rfl) (fun _ => rfl) ?_
      intro _ _ _
      rfl
  reads := by
    have hkind : Reads Decode.kind (fun t => (string t).map Kind.ofTag)
      (fun t => (string t).map Kind.ofTag) := string_reads.map Kind.ofTag
    simp only [Decode.propertyRecord, List.forall_mem_cons]
    exact ⟨hkind.map _, flag_reads.map _, flag_reads.map _, h.nullable.map _, fun _ h => nomatch h⟩

theorem permit_meanings {room : Nat} {F F' : Raw → Option Filter} {G G' : Raw → Option Fields}
    (hf : Reads (Decode.filter room) F F') (he : Reads (Decode.fields room) G G') :
    (Decode.permitRecord room).Meanings (permitParts F G) (permitParts F' G') where
  nodup := by
    change ["filter", "effect", "extend"].Nodup
    decide
  commute := by
    change ["filter", "effect", "extend"].Pairwise _
    simp only [List.pairwise_cons, List.forall_mem_cons, List.not_mem_nil, false_imp_iff,
      implies_true, and_true, List.Pairwise.nil]
    refine ⟨⟨?_, ?_⟩, ?_⟩
    all_goals
      refine Record.Commute.of_map (fun _ => rfl) (fun _ => rfl) ?_
      intro _ _ _
      rfl
  reads := by
    simp only [Decode.permitRecord, List.forall_mem_cons]
    exact ⟨hf.nullable.map _, he.nullable.map _, string_reads.nullable.map _, fun _ h => nomatch h⟩

theorem base_meanings : Decode.baseRecord.Meanings baseParts baseParts where
  nodup := List.nodup_singleton "name"
  commute := List.pairwise_singleton _ "name"
  reads := by
    simp only [Decode.baseRecord, List.forall_mem_cons]
    exact ⟨string_reads.map _, fun _ h => nomatch h⟩

theorem document_meanings {room : Nat} {F F' : Raw → Option Base}
    {G G' : Raw → Option (List (String × Permit))} (hb : Reads (Decode.base room) F F')
    (hp : Reads (Decode.permits room) G G') :
    (Decode.documentRecord room).Meanings (documentParts F G) (documentParts F' G') where
  nodup := by
    change ["base", "permit"].Nodup
    decide
  commute := by
    refine List.pairwise_pair.2 (Record.Commute.of_map (fun _ => rfl) (fun _ => rfl) ?_)
    intro _ _ _
    rfl
  reads := by
    simp only [Decode.documentRecord, List.forall_mem_cons]
    exact ⟨hb.map _, hp.map _, fun _ h => nomatch h⟩

theorem property_bracketed (room : Nat) : Form.Bracketed (property room) := by
  cases room with
  | zero => exact ⟨rfl, fun _ => rfl, fun _ => rfl, fun _ => rfl⟩
  | succ room => exact ⟨rfl, fun _ => rfl, fun _ => rfl, fun _ => rfl⟩

theorem fields_bracketed (room : Nat) : Form.Bracketed (fields room) := by
  cases room with
  | zero => exact ⟨rfl, fun _ => rfl, fun _ => rfl, fun _ => rfl⟩
  | succ room => exact ⟨rfl, fun _ => rfl, fun _ => rfl, fun _ => rfl⟩

theorem fields_array (room : Nat) (ts : List Raw) : fields room (.array ts) = none := by
  cases room <;> rfl

/-- With less room, fewer values have a meaning; those that lose it lie too deep. -/
theorem property_reads_and_fields_reads (room : Nat) : ∀ ever, room ≤ ever →
    Reads (Decode.property room) (property room) (property ever) ∧
      Reads (Decode.fields room) (fields room) (fields ever) := by
  induction room with
  | zero =>
      intro ever _
      exact ⟨Record.closedForm_reads (property_bracketed ever) _,
        closedMapForm_reads (fields_bracketed ever) (fields_array ever)⟩
  | succ room ih =>
      intro ever hever
      cases ever with
      | zero => exact absurd hever (Nat.not_succ_le_zero room)
      | succ ever =>
          obtain ⟨hproperty, hfields⟩ := ih ever (Nat.le_of_succ_le_succ hever)
          have h := Record.reads (property_meanings hfields)
          rw [funext (property_eq _ room), funext (property_eq _ ever)] at h
          exact ⟨h, mapForm_reads hproperty⟩

theorem property_reads {room ever : Nat} (h : room ≤ ever) :
    Reads (Decode.property room) (property room) (property ever) :=
  (property_reads_and_fields_reads room ever h).1

theorem fields_reads {room ever : Nat} (h : room ≤ ever) :
    Reads (Decode.fields room) (fields room) (fields ever) :=
  (property_reads_and_fields_reads room ever h).2

theorem filter_bracketed (room : Nat) : Form.Bracketed (filter room) := by
  cases room with
  | zero => exact ⟨rfl, fun _ => rfl, fun _ => rfl, fun _ => rfl⟩
  | succ room => exact ⟨rfl, fun _ => rfl, fun _ => rfl, fun _ => rfl⟩

theorem filter_reads {room ever : Nat} (h : room ≤ ever) :
    Reads (Decode.filter room) (filter room) (filter ever) := by
  have hbelow : ∀ {t f}, filter room t = some f → filter ever t = some f := by
    intro t f hf
    cases room with
    | zero => cases hf
    | succ room =>
        cases ever with
        | zero => exact absurd h (Nat.not_succ_le_zero room)
        | succ ever =>
            have hle := Nat.le_of_succ_le_succ h
            cases t with
            | array ts =>
                obtain ⟨shapes, hs, rfl⟩ := Option.map_eq_some_iff.1 hf
                exact Option.map_eq_some_iff.2
                  ⟨shapes, elements_below (fields_reads hle).below hs, rfl⟩
            | object ms =>
                obtain ⟨fs, hs, rfl⟩ := Option.map_eq_some_iff.1 hf
                exact Option.map_eq_some_iff.2
                  ⟨fs, (fields_reads h).below hs, rfl⟩
            | _ => cases hf
  refine Form.reads hbelow ((filter_bracketed room).means rfl rfl)
    ((filter_bracketed ever).means rfl rfl) ?_ ?_
  · cases room with
    | zero => exact fun _ => rfl
    | succ room =>
        cases ever with
        | zero => exact absurd h (Nat.not_succ_le_zero room)
        | succ ever =>
            refine ((fields_reads (Nat.le_of_succ_le_succ h)).listElements.map Filter.union).congr ?_
            intro s t rest ht
            obtain ⟨ts, rfl⟩ := exists_array_of_value ht
            exact ⟨rfl, rfl⟩
  · cases room with
    | zero => exact fun _ => rfl
    | succ room =>
        cases ever with
        | zero => exact absurd h (Nat.not_succ_le_zero room)
        | succ ever =>
            refine ((property_reads (Nat.le_of_succ_le_succ h)).mapMembers.map Filter.shape).congr ?_
            intro s t rest ht
            obtain ⟨ms, rfl⟩ := exists_object_of_value ht
            exact ⟨rfl, rfl⟩

theorem permit_bracketed (room : Nat) : Form.Bracketed (permit room) := by
  cases room with
  | zero => exact ⟨rfl, fun _ => rfl, fun _ => rfl, fun _ => rfl⟩
  | succ room => exact ⟨rfl, fun _ => rfl, fun _ => rfl, fun _ => rfl⟩

theorem permit_reads {room ever : Nat} (h : room ≤ ever) :
    Reads (Decode.permit room) (permit room) (permit ever) := by
  cases room with
  | zero => exact Record.closedForm_reads (permit_bracketed ever) _
  | succ room =>
      cases ever with
      | zero => exact absurd h (Nat.not_succ_le_zero room)
      | succ ever =>
          have hle := Nat.le_of_succ_le_succ h
          have hreads := Record.reads (permit_meanings (filter_reads hle) (fields_reads hle))
          rwa [funext (permit_eq room room), funext (permit_eq room ever)] at hreads

theorem permits_bracketed (room : Nat) : Form.Bracketed (permits room) := by
  cases room with
  | zero => exact ⟨rfl, fun _ => rfl, fun _ => rfl, fun _ => rfl⟩
  | succ room => exact ⟨rfl, fun _ => rfl, fun _ => rfl, fun _ => rfl⟩

theorem permits_array (room : Nat) (ts : List Raw) : permits room (.array ts) = none := by
  cases room <;> rfl

theorem permits_reads {room ever : Nat} (h : room ≤ ever) :
    Reads (Decode.permits room) (permits room) (permits ever) := by
  cases room with
  | zero => exact closedMapForm_reads (permits_bracketed ever) (permits_array ever)
  | succ room =>
      cases ever with
      | zero => exact absurd h (Nat.not_succ_le_zero room)
      | succ ever => exact mapForm_reads (permit_reads (Nat.le_of_succ_le_succ h))

theorem base_bracketed (room : Nat) : Form.Bracketed (base room) := by
  cases room with
  | zero => exact ⟨rfl, fun _ => rfl, fun _ => rfl, fun _ => rfl⟩
  | succ room => exact ⟨rfl, fun _ => rfl, fun _ => rfl, fun _ => rfl⟩

theorem base_reads {room ever : Nat} (h : room ≤ ever) :
    Reads (Decode.base room) (base room) (base ever) := by
  cases room with
  | zero => exact Record.closedForm_reads (base_bracketed ever) _
  | succ room =>
      cases ever with
      | zero => exact absurd h (Nat.not_succ_le_zero room)
      | succ ever =>
          have hreads := Record.reads base_meanings
          rwa [funext (base_eq room)] at hreads

theorem document_bracketed (room : Nat) : Form.Bracketed (document room) := by
  cases room with
  | zero => exact ⟨rfl, fun _ => rfl, fun _ => rfl, fun _ => rfl⟩
  | succ room => exact ⟨rfl, fun _ => rfl, fun _ => rfl, fun _ => rfl⟩

theorem document_reads {room ever : Nat} (h : room ≤ ever) :
    Reads (Decode.document room) (document room) (document ever) := by
  cases room with
  | zero => exact Record.closedForm_reads (document_bracketed ever) _
  | succ room =>
      cases ever with
      | zero => exact absurd h (Nat.not_succ_le_zero room)
      | succ ever =>
          have hle := Nat.le_of_succ_le_succ h
          have hreads := Record.reads (document_meanings (base_reads hle) (permits_reads hle))
          rwa [funext (document_eq room room), funext (document_eq room ever)] at hreads

end PermitTypes.Schema.Meaning

namespace PermitTypes.Schema

open Json Json.Grammar

theorem parse_eq_ok {source : String} {d : Document} :
    Document.parse source = .ok d ↔
      ∃ rest, (Decode.document Decode.depthLimit).run source.toList = .ok (d, rest) ∧
        skipSpace rest = [] :=
  Reader.read_eq_ok_iff

theorem means_of_parse {source : String} {d : Document} (h : Document.parse source = .ok d) :
    ∃ t, Text source.toList t ∧ Meaning.document Decode.depthLimit t = some d :=
  (Meaning.document_reads (Nat.le_refl _)).read_eq_ok_iff.1 h

theorem parse_of_means {source : String} {t : Raw} {d : Document} (htext : Text source.toList t)
    (hd : Meaning.document Decode.depthLimit t = some d) : Document.parse source = .ok d :=
  (Meaning.document_reads (Nat.le_refl _)).read_eq_ok_iff.2 ⟨t, htext, hd⟩

/-- A text is parsed to the document that it means, and to none if it is no JSON value or means no
document. -/
theorem parse_eq_ok_iff_means (source : String) (d : Document) :
    Document.parse source = .ok d ↔
      ∃ t, Text source.toList t ∧ Meaning.document Decode.depthLimit t = some d := by
  constructor
  · intro h
    exact means_of_parse h
  · rintro ⟨t, htext, hd⟩
    exact parse_of_means htext hd

end PermitTypes.Schema
