import Mathlib.Data.List.Infix
import PermitTypes.Project.Failure
import PermitTypes.Proofs.Json.Fronts
import PermitTypes.Proofs.Schema.Reading

namespace PermitTypes.Schema.Decode

open Json Json.Grammar

theorem string_agree (room : Nat) : Reader.Agree room Eq string string :=
  Form.agree .refused .refused

theorem flag_agree (room : Nat) : Reader.Agree room Eq flag flag :=
  Form.agree .refused .refused

theorem propertyRecord_agree {room : Nat} {r r' : Reader Fields}
    (h : Reader.Agree room Eq r r') : (propertyRecord r).Agree room (propertyRecord r') where
  expected := rfl
  draft := rfl
  finish := rfl
  fields := .cons ⟨rfl, ((string_agree room).map_eq _).map_eq _⟩
    (.cons ⟨rfl, (flag_agree room).map_eq _⟩
      (.cons ⟨rfl, (flag_agree room).map_eq _⟩ (.cons ⟨rfl, h.nullable.map_eq _⟩ .nil)))

/-- Without room a property has no bracket to open, whatever its reader would do inside. -/
theorem property_agree_nothing (more : Nat) : Reader.Agree 0 Eq (property 0) (property more) := by
  cases more with
  | zero => exact Form.agree .noRoom .noRoom
  | succ more => exact Form.agree .noRoom .noRoom

theorem fields_agree_nothing (more : Nat) : Reader.Agree 0 Eq (fields 0) (fields more) := by
  cases more with
  | zero => exact Form.agree .noRoom .noRoom
  | succ more => exact Form.agree .noRoom .noRoom

/-- More room makes no difference to a text that fits. -/
theorem property_agree_and_fields_agree (room : Nat) : ∀ more, room ≤ more →
    Reader.Agree room Eq (property room) (property more) ∧
      Reader.Agree room Eq (fields room) (fields more) := by
  induction room with
  | zero => exact fun more _ => ⟨property_agree_nothing more, fields_agree_nothing more⟩
  | succ room ih =>
      intro more hmore
      obtain ⟨more, rfl⟩ := Nat.exists_eq_add_of_le' hmore
      obtain ⟨hproperty, hfields⟩ := ih (more + room) (Nat.le_add_left ..)
      exact ⟨(propertyRecord_agree hfields).form,
        Form.agree .refused (.inside (mapMembers_agree hproperty).inside)⟩

/-- A text that fits some room is read alike in all rooms that are no smaller. -/
theorem run_fields_eq {room more more' : Nat} {s : List Char} (h : room ≤ more)
    (h' : room ≤ more') (hs : Fits room 0 s) : (fields more).run s = (fields more').run s := by
  have hmore := ((property_agree_and_fields_agree room more h).2 hs).eq
  have hmore' := ((property_agree_and_fields_agree room more' h').2 hs).eq
  exact hmore.symm.trans hmore'

theorem string_stays : Reader.Stays string := Form.stays nofun nofun

theorem flag_stays : Reader.Stays flag := Form.stays nofun nofun

theorem propertyRecord_stays {r : Reader Fields} (h : r.Stays) :
    (propertyRecord r).form.reader.Stays := by
  refine Record.stays ?_
  simp only [propertyRecord, List.forall_mem_cons]
  exact ⟨(string_stays.map _).map _, flag_stays.map _, flag_stays.map _, h.nullable.map _,
    List.forall_mem_nil _⟩

theorem property_stays_and_fields_stays (room : Nat) :
    (property room).Stays ∧ (fields room).Stays := by
  induction room with
  | zero => exact ⟨Form.stays nofun nofun, Form.stays nofun nofun⟩
  | succ room ih =>
      refine ⟨propertyRecord_stays ih.2, Form.stays nofun ?_⟩
      rintro body ⟨⟩
      exact mapMembers_stays ih.1

/-- A text of which no front is a container is wrong somewhere inside. -/
theorem fields_fault {s : List Char} (hs : skipSpace s = s)
    (hnone : ∀ front, front <+: s → ∀ fs, (fields depthLimit).readAll front ≠ .ok fs) :
    ∃ fault, (fields depthLimit).run s = .error fault := by
  cases hrun : (fields depthLimit).run s with
  | error fault => exact ⟨fault, rfl⟩
  | ok found =>
      obtain ⟨fs, rest⟩ := found
      have hreads := Meaning.fields_reads (Nat.le_refl depthLimit)
      obtain ⟨front, hfront, halone⟩ := hreads.exists_prefix hs hrun
      have hall : (fields depthLimit).readAll front = .ok fs := by
        simp only [Reader.readAll, halone]
        rfl
      exact absurd hall (hnone front hfront fs)

/-- What is wrong in the first part of the first permit is wrong in the document. -/
theorem permit_fault {room : Nat} (name : String) {field : Json.Field Permit} {value : List Char}
    {fault : Fault} (hfind : (permitRecord room).fields.find? (·.name = name) = some field)
    (hr : field.value.run value = .error fault) :
    (document (room + 3)).run ('{' :: (writeString "permit" ++ ':' :: '{' ::
      (writeString "a" ++ ':' :: '{' :: (writeString name ++ ':' :: value)))) = .error fault := by
  have hpermit := Record.first_fault (r := permitRecord room) hfind hr
  have hpermits : (permits (room + 2)).run ('{' ::
      (writeString "a" ++ ':' :: '{' :: (writeString name ++ ':' :: value))) = .error fault :=
    mapMembers_first_fault hpermit
  exact Record.first_fault (r := documentRecord (room + 2)) rfl (Reader.map_fault hpermits _)

section

variable {room : Nat} {s : List Char} {fault : Fault}

theorem effect_fault (h : (fields room).run ('{' :: s) = .error fault) :
    (document (room + 3)).run ("\x7b\"permit\":\x7b\"a\":\x7b\"effect\":".toList ++ '{' :: s) =
      .error fault := by
  have hfront : "\x7b\"permit\":\x7b\"a\":\x7b\"effect\":".toList =
      '{' :: (writeString "permit" ++ ':' :: '{' :: (writeString "a" ++ ':' :: '{' ::
        (writeString "effect" ++ [':']))) := by decide +kernel
  have hvalue := Reader.nullable_fault (by decide) h
  have hrun := permit_fault "effect" rfl (Reader.map_fault hvalue _)
  rw [hfront]
  simpa using hrun

theorem filter_fault {c : Char} (hc : c ∉ [' ', '\t', '\n', '\r', 'n'])
    (h : (filter room).run (c :: s) = .error fault) :
    (document (room + 3)).run ("\x7b\"permit\":\x7b\"a\":\x7b\"filter\":".toList ++ c :: s) =
      .error fault := by
  have hfront : "\x7b\"permit\":\x7b\"a\":\x7b\"filter\":".toList =
      '{' :: (writeString "permit" ++ ':' :: '{' :: (writeString "a" ++ ':' :: '{' ::
        (writeString "filter" ++ [':']))) := by decide +kernel
  have hvalue := Reader.nullable_fault hc h
  have hrun := permit_fault "filter" rfl (Reader.map_fault hvalue _)
  rw [hfront]
  simpa using hrun

/-- A filter that is an object is read as the fields of an effect are. -/
theorem shape_fault (h : (fields (room + 1)).run ('{' :: s) = .error fault) :
    (filter (room + 1)).run ('{' :: s) = .error fault :=
  Reader.map_fault (r := (mapMembers (property room)).reader) h Filter.shape

theorem union_fault (h : (fields room).run ('{' :: s) = .error fault) :
    (filter (room + 1)).run ('[' :: '{' :: s) = .error fault :=
  Reader.map_fault (listElements_first_fault (by decide) h) Filter.union

end

end PermitTypes.Schema.Decode

namespace PermitTypes.Schema

open Json Json.Grammar

/-- What stands in front of a shape: of an effect, of a filter, or the first of a list. -/
def shapeFronts : List String :=
  ["\x7b\"permit\":\x7b\"a\":\x7b\"effect\":", "\x7b\"permit\":\x7b\"a\":\x7b\"filter\":",
    "\x7b\"permit\":\x7b\"a\":\x7b\"filter\":["]

/-- The shape has as much room behind each of the fronts as it has there for itself. -/
theorem fault_behind_fronts {s : List Char} {fault : Fault} (hs : Fits 123 0 ('{' :: s))
    (h : (Decode.fields Decode.depthLimit).run ('{' :: s) = .error fault) :
    ∀ front ∈ shapeFronts,
      (Decode.document Decode.depthLimit).run (front.toList ++ '{' :: s) = .error fault := by
  have hfields : ∀ {room}, 123 ≤ room → (Decode.fields room).run ('{' :: s) = .error fault :=
    fun hroom => (Decode.run_fields_eq hroom (by decide) hs).trans h
  have hunion := Decode.filter_fault (by decide) (Decode.union_fault (hfields (Nat.le_refl 123)))
  have hlist : "\x7b\"permit\":\x7b\"a\":\x7b\"filter\":[".toList =
      "\x7b\"permit\":\x7b\"a\":\x7b\"filter\":".toList ++ ['['] := by decide +kernel
  simp only [shapeFronts, List.forall_mem_cons]
  refine ⟨Decode.effect_fault (hfields (by decide)),
    Decode.filter_fault (by decide) (Decode.shape_fault (hfields (by decide))), ?_,
    List.forall_mem_nil _⟩
  rw [hlist, List.append_assoc]
  exact hunion

/-- A shape that cannot be read fails with its cause and its place wherever it stands; on the first
line, what stands in front of it moves its column. -/
theorem shape_failure_keeps_its_place {text : String} (hopen : text.toList.head? = some '{')
    (hdepth : openAtOnce text ≤ 123)
    (hnone : ∀ front : String, front.toList <+: text.toList →
      ∀ fs, (Decode.fields Decode.depthLimit).read front ≠ .ok fs) :
    ∃ (cause : Cause) (line column : Nat),
      (Decode.fields Decode.depthLimit).read text = .error ⟨cause, line, column⟩ ∧
      ∀ front ∈ shapeFronts, ∃ moved,
        moved = (if line = 1 then column + front.length else column) ∧
        Document.parse (front ++ text) = .error ⟨cause, line, moved⟩ ∧
        (Project.LoadFailure.malformed ⟨cause, line, moved⟩).message =
          "Invalid permit document: " ++ (cause.message ++ " at line " ++ toString line ++
            " column " ++ toString moved) := by
  obtain ⟨s, hs⟩ := List.head?_eq_some_iff.1 hopen
  have hskip : skipSpace text.toList = text.toList := by
    rw [hs]
    rfl
  have hfronts : ∀ front, front <+: text.toList →
      ∀ fs, (Decode.fields Decode.depthLimit).readAll front ≠ .ok fs := by
    intro front hfront fs hall
    refine hnone (String.ofList front) (by rwa [String.toList_ofList]) fs ?_
    simp only [Reader.read, String.toList_ofList, hall]
  obtain ⟨fault, hfault⟩ := Decode.fields_fault hskip hfronts
  have hleft : fault.left ≤ size text.toList :=
    ((Decode.property_stays_and_fields_stays _).2 text.toList).left_le hfault
  have hlines : ∀ front ∈ shapeFronts, '\n' ∉ front.toList ∧ size front.toList = front.length := by
    decide +kernel
  refine ⟨fault.cause, (fault.place text.toList).line, (fault.place text.toList).column, ?_, ?_⟩
  · simp only [Reader.read, Reader.readAll, hfault]
    rfl
  · intro front hfront
    obtain ⟨hline, hsize⟩ := hlines front hfront
    have hrun := fault_behind_fronts (by rwa [← hs]) (hs ▸ hfault) front hfront
    rw [← hs, ← String.toList_append] at hrun
    have hplace := Fault.place_append hline hleft
    refine ⟨_, rfl, ?_, rfl⟩
    simp only [Document.parse, Reader.read, Reader.readAll, hrun]
    rw [Fault.located, String.toList_append, hplace, Place.shift, hsize, Nat.add_comm]

theorem untyped_field_keeps_its_place :
    let text := "\x7b\"x\": \x7b\"optional\": true\x7d\x7d"
    (text.toList.head? = some '{' ∧ openAtOnce text ≤ 123 ∧
      ∀ front : String, front.toList <+: text.toList →
        ∀ fs, (Decode.fields Decode.depthLimit).read front ≠ .ok fs) ∧
      (Decode.fields Decode.depthLimit).read text = .error ⟨.missingField "type", 1, 24⟩ ∧
      ∀ front ∈ shapeFronts,
        Document.parse (front ++ text) = .error ⟨.missingField "type", 1, 24 + front.length⟩ := by
  intro text
  have hopen : text.toList.head? = some '{' := by decide +kernel
  have hdepth : openAtOnce text ≤ 123 := by decide +kernel
  have hfronts : ∀ front ∈ text.toList.inits,
      ((Decode.fields Decode.depthLimit).readAll front).toOption = none := by decide +kernel
  have hnone : ∀ front : String, front.toList <+: text.toList →
      ∀ fs, (Decode.fields Decode.depthLimit).read front ≠ .ok fs := by
    intro front hfront fs hread
    have hall := hfronts front.toList ((List.mem_inits _ _).2 hfront)
    simp only [Reader.read] at hread
    split at hread
    · cases hread
    · next h =>
        rw [h] at hall
        cases hall
  have hread : (Decode.fields Decode.depthLimit).read text =
      .error ⟨.missingField "type", 1, 24⟩ := by decide +kernel
  obtain ⟨cause, line, column, hfail, hall⟩ := shape_failure_keeps_its_place hopen hdepth hnone
  rw [hread] at hfail
  cases hfail
  refine ⟨⟨hopen, hdepth, hnone⟩, hread, fun front hfront => ?_⟩
  obtain ⟨moved, rfl, hparse, -⟩ := hall front hfront
  exact hparse

end PermitTypes.Schema
